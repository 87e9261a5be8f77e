import Xv6.Lib.Bytes

/-! Compile-time constants of `param.h` and `fs.h`, and the disk block. -/

namespace Xv6

abbrev NPROC : ℕ := 64
abbrev NOFILE : ℕ := 16
abbrev NFILE : ℕ := 100
abbrev NINODE : ℕ := 50
abbrev NDEV : ℕ := 10
abbrev MAXARG : ℕ := 32
abbrev MAXOPBLOCKS : ℕ := 10
abbrev LOGSIZE : ℕ := MAXOPBLOCKS * 3
abbrev NBUF : ℕ := MAXOPBLOCKS * 3
abbrev FSSIZE : ℕ := 1000

abbrev BSIZE : ℕ := 512

instance : NeZero NPROC := ⟨by decide⟩
instance : NeZero NINODE := ⟨by decide⟩

abbrev Block := Lib.Bytes BSIZE

end Xv6
