import LinuxDemo.Invariant.CreateDaemon

/-!
# What becomes a daemon

`becomeDaemon` for every value of its flags, called in any process of any table, whatever
the kernel answers. What is said of those who have ended is so when their `_exit` is made.
-/
namespace LinuxDemo.Guarantees.CreateDaemon
open LinuxDemo.Lib LinuxDemo.Source.CreateDaemon LinuxDemo.Invariant.CreateDaemon

end LinuxDemo.Guarantees.CreateDaemon
