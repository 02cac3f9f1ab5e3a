namespace CommitGraph.Text

def readDigits (cs : List Char) : Option Nat :=
  if cs ≠ [] ∧ cs.all Char.isDigit then
    some (cs.foldl (fun n c => 10 * n + (c.toNat - '0'.toNat)) 0)
  else none

/-- A whole number below `bound`; a plus sign may stand before it. -/
def readNat (bound : Nat) (cs : List Char) : Option Nat :=
  let digits := match cs with
    | '+' :: rest => rest
    | _ => cs
  (readDigits digits).filter (· < bound)

/-- A number `n` with `-bound ≤ n < bound`; a sign may stand before it. -/
def readInt (bound : Nat) (cs : List Char) : Option Int :=
  match cs with
  | '-' :: rest => (readDigits rest).bind fun n => if n ≤ bound then some (-n) else none
  | _ => (readNat bound cs).map Int.ofNat

end CommitGraph.Text
