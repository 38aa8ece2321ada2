import Mathlib.Logic.Basic

/-!
# Kernel error codes

The error side of `KResult<T>`. `Errno::Ok` is not an error and is left out: a Rust `Err` never
carries it.
-/

namespace Onyx

/-- `enum Errno` of `core/src/errno`. -/
inductive Errno
  | noMem | inval | noEnt | io | perm | range | noSys | busy | noSpace | notDir | isDir | badFd
  | exist | pipe | overflow | child | notEmpty | loop | again | fault
  deriving DecidableEq, Repr

/-- `Errno::as_i64`: the value a system call returns for the error. -/
def Errno.asI64 : Errno → Int
  | noMem => -1
  | inval => -2
  | noEnt => -3
  | io => -4
  | perm => -5
  | range => -6
  | noSys => -7
  | busy => -8
  | noSpace => -9
  | notDir => -10
  | isDir => -11
  | badFd => -12
  | exist => -13
  | pipe => -14
  | overflow => -15
  | child => -16
  | notEmpty => -17
  | loop => -18
  | again => -19
  | fault => -20

end Onyx
