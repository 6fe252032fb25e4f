import CirOutline.Text.Quoted

/-!
Decoding UTF-8 bytes, with the place and the reason of the first fault.
-/

namespace CirOutline.Text.Utf8

/-- Why bytes are no UTF-8. -/
inductive Reason where
  | startByte
  | continuationByte
  | unexpectedEnd

def Reason.text : Reason → String
  | .startByte => "invalid start byte"
  | .continuationByte => "invalid continuation byte"
  | .unexpectedEnd => "unexpected end of data"

/-- Bytes at fault: the position of the first, its value and how many there are. -/
structure Fault where
  reason : Reason
  position : Nat
  byte : UInt8
  count : Nat

def Fault.message (fault : Fault) : String :=
  let place :=
    if fault.count == 1 then
      "byte 0x" ++ String.ofList (hexDigits 2 fault.byte.toNat) ++ " in position " ++
        toString fault.position
    else
      "bytes in position " ++ toString fault.position ++ "-" ++
        toString (fault.position + fault.count - 1)
  "'utf-8' codec can't decode " ++ place ++ ": " ++ fault.reason.text

def isContinuation (b : UInt8) : Bool := b.toNat &&& 0xC0 == 0x80

/-- The bounds of the second byte after a first byte of a longer sequence: no character has two
spellings, none is a surrogate and none lies beyond the last code point. -/
def secondInRange (first second : UInt8) : Bool :=
  if first == 0xE0 then 0xA0 ≤ second
  else if first == 0xED then second < 0xA0
  else if first == 0xF0 then 0x90 ≤ second
  else if first == 0xF4 then second < 0x90
  else true

/-- The six bits that a continuation byte carries. -/
def payload (b : UInt8) : Nat := b.toNat &&& 0x3F

/-- Decodes one character: the number of bytes that follow the first, or the reason of the fault
and the number of bytes at fault. -/
def decodeChar (first : UInt8) (rest : List UInt8) : Except (Reason × Nat) (Char × Nat) :=
  if first < 0x80 then .ok (Char.ofNat first.toNat, 0)
  else if first < 0xC2 || 0xF5 ≤ first then .error (.startByte, 1)
  else
    let length := if first < 0xE0 then 1 else if first < 0xF0 then 2 else 3
    match rest with
    | [] => .error (.unexpectedEnd, 1)
    | second :: rest =>
      if !isContinuation second || !secondInRange first second then .error (.continuationByte, 1)
      else if length == 1 then
        .ok (Char.ofNat ((first.toNat &&& 0x1F) * 64 + payload second), 1)
      else match rest with
        | [] => .error (.unexpectedEnd, 2)
        | third :: rest =>
          if !isContinuation third then .error (.continuationByte, 2)
          else if length == 2 then
            .ok (Char.ofNat (((first.toNat &&& 0x0F) * 64 + payload second) * 64 +
              payload third), 2)
          else match rest with
            | [] => .error (.unexpectedEnd, 3)
            | fourth :: _ =>
              if !isContinuation fourth then .error (.continuationByte, 3)
              else
                .ok (Char.ofNat ((((first.toNat &&& 0x07) * 64 + payload second) * 64 +
                  payload third) * 64 + payload fourth), 3)

def decodeFrom (position : Nat) : List UInt8 → Except Fault (List Char)
  | [] => .ok []
  | first :: rest =>
    match decodeChar first rest with
    | .error (reason, count) => .error ⟨reason, position, first, count⟩
    | .ok (c, more) =>
      match decodeFrom (position + 1 + more) (rest.drop more) with
      | .error fault => .error fault
      | .ok cs => .ok (c :: cs)
termination_by bytes => bytes.length
decreasing_by simp only [List.length_cons, List.length_drop]; omega

def decode (bytes : List UInt8) : Except Fault (List Char) := decodeFrom 0 bytes

end CirOutline.Text.Utf8
