import CS450.Dev.Console
import CS450.Dev.Mp
import CS450.Fs.Append
import CS450.Fs.Lru
import CS450.Fs.Holes
import CS450.Fs.Path
import CS450.Fs.Pipe
import CS450.Proc.Kill
import CS450.Proc.Syscount
import CS450.Shared.Collision
import CS450.Shared.Undo
import CS450.Shell.Language
import CS450.Shell.Raw
import CS450.Shell.Schedule
import CS450.Shell.Terminate
import CS450.User.Grep
import CS450.User.Heap
import CS450.User.Memmove
import CS450.User.Printint
import CS450.User.Sbrk
import CS450.Vm.Copy
import CS450.Vm.ExecArgs
