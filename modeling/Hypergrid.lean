import Hypergrid.AccountsPartition
import Hypergrid.AuthorizedVoters
import Hypergrid.BaseLayer
import Hypergrid.CacheAccounting
import Hypergrid.CallBalance
import Hypergrid.Capitalization
import Hypergrid.CleanSafety
import Hypergrid.CooperativeLoading
import Hypergrid.Crds
import Hypergrid.ForkChoiceCandidates
import Hypergrid.ForkChoiceRun
import Hypergrid.Hgnft
import Hypergrid.LatestVotes
import Hypergrid.LocalWins
import Hypergrid.Prepass
import Hypergrid.ProgramVisibility
import Hypergrid.RemoteFlag
import Hypergrid.ScanConsistency
import Hypergrid.ShredMerkle
import Hypergrid.StakeRewards
import Hypergrid.StatusCacheClear
import Hypergrid.TowerRestore
import Hypergrid.TowerSafety
import Hypergrid.TransactionFlow
import Hypergrid.Turbine
import Hypergrid.Upgrade
import Hypergrid.VoteRewards
