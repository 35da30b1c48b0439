import Evel.Model.System

namespace Evel

/-- The values of `SSL_get_error` that the code tells apart, with `errno` where it is read. -/
inductive SslError
  | none
  | wantRead
  | wantWrite
  | zeroReturn
  | syscall (errno : Errno)
  | ssl
deriving DecidableEq, Repr

/-- An answer after which the operation is not tried again. -/
def SslError.fatal : SslError → Bool
  | .none | .wantRead | .wantWrite | .syscall .intr => false
  | .zeroReturn | .syscall _ | .ssl => true

end Evel
