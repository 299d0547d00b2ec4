import DmdModel.Runtime.Utf.Theorems.Decode
import DmdModel.Runtime.Utf.Theorems.Wide

namespace Runtime.Utf

variable {U : Type} {aa us ts rest : List Char8} {i j k n p r v : Nat} {d D m : DChar} {u u2 c : Char8}

variable {enc : DChar → Except UtfError (List U)}

end Runtime.Utf

namespace Runtime.Utf

variable {A U : Type} {e : UtfError} {contracts : Bool}

-- What the loops visit for a character.
def Encodes (enc : DChar → Except UtfError (List U)) (d : DChar) (us : List U) : Prop :=
  enc d = .ok us

section
variable {aa : List Char8} {arg : Nat → U → A} {enc : DChar → Except UtfError (List U)}

end

-- The loops over UTF-16.

section
variable {aa : List WChar} {arg : Nat → U → A} {enc : DChar → Except UtfError (List U)}

end

-- The loops over UTF-32 take every unit as a character.

section
variable {aa : List DChar} {i j : Nat} {d : DChar}

end

end Runtime.Utf
