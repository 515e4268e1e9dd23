import Xv6.Block.BufList
import Xv6.Block.Room
import Xv6.Fs.Clean
import Xv6.Fs.Limits
import Xv6.Fs.Lookup
import Xv6.Proc.Channel
import Xv6.Proc.Kill
import Xv6.Proc.LineEdit
import Xv6.Proc.Reap
import Xv6.Sys.AllOrNothing
import Xv6.Sys.ExecImage
import Xv6.Sys.Fork
import Xv6.Sys.Read
import Xv6.Trap.Return
import Xv6.User.GrepLines
import Xv6.User.Parse
import Xv6.Vm.Kvm
import Xv6.Vm.PageMap
import Xv6.Vm.String
