import DmdModel.Runtime.Utf.Theorems.Utf16

namespace Runtime.Utf

variable {U : Type} {aa : List WChar} {i j : Nat} {d : DChar} {u u2 : WChar} {contracts : Bool}

variable {enc : DChar → Except UtfError (List U)}

end Runtime.Utf
