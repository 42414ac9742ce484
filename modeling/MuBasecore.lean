import MuBasecore.GcdSearch
import MuBasecore.PoolRuns
import MuBasecore.BinSplit
import MuBasecore.GuardedPages
import MuBasecore.MapKey
import MuBasecore.EventRuns
import MuBasecore.TimerReturns
import MuBasecore.PageGrants
import MuBasecore.PageSearch
import MuBasecore.MemoryTypeHob
import MuBasecore.VariableRuns
import MuBasecore.PolicyRegistration
import MuBasecore.PeiPolicyRuns
import MuBasecore.PolicyNotifyPei
import MuBasecore.PageTableParse
import MuBasecore.PageTableErrors
import MuBasecore.AmlPkgLength
import MuBasecore.AmlReplace
import MuBasecore.HandleRollback
import MuBasecore.FatReports
import MuBasecore.Ip4Runs
import MuBasecore.TcpRuns
import MuBasecore.DependencyTrees
import MuBasecore.SignatureLists
import MuBasecore.CapsuleFreeMem
import MuBasecore.CertDb
