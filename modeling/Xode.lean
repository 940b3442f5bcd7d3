import Xode.Freezer.Accounts
import Xode.Freezer.Thaws
import Xode.Staking.Reserves
import Xode.Staking.Bonds
import Xode.Staking.Lockups
import Xode.Staking.Failures
import Xode.Staking.Crowding
import Xode.Staking.Ranking
import Xode.Staking.Boosts
import Xode.Staking.Quiet
import Xode.Staking.Entry
import Xode.Staking.Events
import Xode.Staking.Histories
import Xode.Staking.Authors
import Xode.Staking.Timetable
import Xode.Staking.Records
import Xode.Staking.Recovery
import Xode.Staking.Saturation
import Xode.Staking.Returns
import Xode.Staking.Statuses
import Xode.Staking.Traces
import Xode.Staking.Interleavings
