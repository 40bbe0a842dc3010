import WordLisp.Word

/-!
# Devices

Whatever answers for the addresses below the program. The machine knows nothing of a device but
that it can be read and written, and that either may change it.
-/

namespace WordLisp

class Device (D : Type) where
  read : Word → D → Word × D
  write : Word → Word → D → D

end WordLisp
