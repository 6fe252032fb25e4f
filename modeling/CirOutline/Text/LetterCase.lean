import CirOutline.Text.CaseTable

/-!
Upper and lower case of a text, for letters of every script. A letter may change into several
characters, and a capital sigma that ends a word has a lower case form of its own.
-/

namespace CirOutline.Text

def upperChar (c : Char) : List Char :=
  match upperForms.lookup c.toNat with
  | some codes => codes.map Char.ofNat
  | none =>
    match CaseRun.move? false 0 iotaRuns c.toNat with
    | some code => [Char.ofNat code, 'Ι']
    | none => [Char.ofNat ((CaseRun.move? false 0 letterRuns c.toNat).getD c.toNat)]

def upper (s : String) : String := String.ofList (s.toList.flatMap upperChar)

/-- One character in lower case, whatever stands around it. -/
def lowerChar (c : Char) : List Char :=
  match lowerForms.lookup c.toNat with
  | some codes => codes.map Char.ofNat
  | none =>
    [Char.ofNat ((CaseRun.move? false 0 iotaCapitals c.toNat <|>
      CaseRun.move? true 0 letterRuns c.toNat).getD c.toNat)]

/-- Whether the first character that is not transparent to case is a letter with case. -/
def meetsCased (cs : List Char) : Bool :=
  match cs.dropWhile caseIgnorableRuns.has with
  | [] => false
  | c :: _ => casedRuns.has c

/-- The lower case of a text; `before` holds the characters already passed, the nearest first. -/
def lowerAfter (before : List Char) : List Char → List Char
  | [] => []
  | c :: rest =>
    let image :=
      if c == 'Σ' then
        if meetsCased before && !meetsCased rest then ['ς'] else ['σ']
      else lowerChar c
    image ++ lowerAfter (c :: before) rest

def lower (s : String) : String := String.ofList (lowerAfter [] s.toList)

end CirOutline.Text
