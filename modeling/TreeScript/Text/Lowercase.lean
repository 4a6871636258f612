import TreeScript.Text.CaseIgnorable
import TreeScript.Text.Cased

/-!
# Small letters

Text in small letters.  A letter has one small letter of its own, with two exceptions: the capital I
with a dot becomes an i and the dot as a mark, and the capital sigma has a second small letter for
the end of a word.
-/

namespace TreeScript.Text

/-- The letters `first`, `first + step` and so on up to `last`.  The small letter of each comes
`shift` code points after it. -/
structure LetterRun where
  first : Nat
  last : Nat
  step : Nat
  shift : Int
  deriving DecidableEq, Inhabited

def LetterRun.contains (r : LetterRun) (c : Char) : Bool :=
  r.first ≤ c.toNat && c.toNat ≤ r.last && (c.toNat - r.first) % r.step == 0

/-- Runs of letters, each by four numbers: how far its first letter is from the last one before,
how many letters it has, their step and their shift. -/
def LetterRun.decode (last : Nat) : List Int → List LetterRun
  | gap :: count :: step :: shift :: runs =>
    let first := last + gap.toNat
    let run := ⟨first, first + step.toNat * (count.toNat - 1), step.toNat, shift⟩
    run :: decode run.last runs
  | _ => []

/-- The letters that have one small letter other than themselves, in increasing order. -/
def capitalRuns : Array LetterRun := List.toArray <| LetterRun.decode 0 [
  65,26,1,32,102,23,1,32,2,7,1,32,34,24,2,1,4,3,2,1,3,8,2,1,3,23,2,1,2,1,1,-121,1,3,2,1,4,1,1,210,1,
  2,2,1,2,1,1,206,1,1,1,1,2,2,1,205,1,1,1,1,3,1,1,79,1,1,1,202,1,1,1,203,1,1,1,1,2,1,1,205,1,1,1,
  207,2,1,1,211,1,1,1,209,1,1,1,1,4,1,1,211,1,1,1,213,2,1,1,214,1,3,2,1,2,1,1,218,1,1,1,1,2,1,1,218,
  3,1,1,1,2,1,1,218,1,1,1,1,2,2,1,217,1,2,2,1,2,1,1,219,1,1,1,1,4,1,1,1,8,1,1,2,1,1,1,1,2,1,1,2,1,1,
  1,1,2,1,1,2,1,9,2,1,3,9,2,1,3,1,1,2,1,2,2,1,2,1,1,-97,1,1,1,-56,1,20,2,1,2,1,1,-130,2,9,2,1,8,1,1,
  10795,1,1,1,1,2,1,1,-163,1,1,1,10792,3,1,1,1,2,1,1,-195,1,1,1,69,1,1,1,71,1,5,2,1,290,2,2,1,4,1,1,
  1,9,1,1,116,7,1,1,38,2,3,1,37,2,1,1,64,2,2,1,63,2,17,1,32,2,9,1,32,36,1,1,8,9,12,2,1,6,1,1,-60,3,
  1,1,1,2,1,1,-7,1,1,1,1,3,3,1,-130,1,16,1,80,1,32,1,32,49,17,2,1,10,27,2,1,2,1,1,15,1,7,2,1,3,48,2,
  1,3,38,1,48,2890,38,1,7264,2,1,1,7264,6,1,1,7264,723,80,1,38864,1,6,1,8,2196,1,1,1,7,43,1,-3008,3,
  3,1,-3008,321,75,2,1,10,1,1,-7615,2,48,2,1,10,8,1,-8,9,6,1,-8,11,8,1,-8,9,8,1,-8,9,6,1,-8,12,4,2,
  -8,9,8,1,-8,25,8,1,-8,9,8,1,-8,9,8,1,-8,9,2,1,-8,1,2,1,-74,1,1,1,-9,12,4,1,-86,1,1,1,-9,12,2,1,-8,
  1,2,1,-100,13,2,1,-8,1,2,1,-112,1,1,1,-7,12,2,1,-128,1,2,1,-126,1,1,1,-9,298,1,1,-7517,4,1,1,
  -8383,1,1,1,-8262,7,1,1,28,46,16,1,16,20,1,1,1,819,26,1,26,1841,48,1,48,49,1,1,1,2,1,1,-10743,1,1,
  1,-3814,1,1,1,-10727,3,3,2,1,2,1,1,-10780,1,1,1,-10749,1,1,1,-10783,1,1,1,-10782,2,1,1,1,3,1,1,1,
  9,2,1,-10815,1,50,2,1,9,2,2,1,5,1,1,1,31054,23,2,1,20,14,2,1,136,7,2,1,4,31,2,1,11,2,2,1,2,1,1,
  -35332,1,5,2,1,5,1,1,1,2,1,1,-42280,3,2,2,1,4,10,2,1,2,1,1,-42308,1,1,1,-42319,1,1,1,-42315,1,1,1,
  -42305,1,1,1,-42308,2,1,1,-42258,1,1,1,-42282,1,1,1,-42261,1,1,1,928,1,8,2,1,2,1,1,-48,1,1,1,
  -42307,1,1,1,-35384,1,2,2,1,2,1,1,-42343,1,8,2,1,2,1,1,-42561,25,1,1,1,22316,26,1,32,1222,40,1,40,
  137,36,1,40,157,11,1,39,2,15,1,39,2,7,1,39,2,2,1,39,1771,51,1,64,158,22,1,32,2875,32,1,32,21889,
  32,1,32,65,25,1,27,31304,34,1,34]

def capitalSigma : Char := '\u03a3'

/-- The small letter of a character wherever it stands in a word. -/
def smallLetter (c : Char) : List Char :=
  if c == '\u0130' then ['i', '\u0307']
  else
    match capitalRuns.find? (·.contains c) with
    | some r => [Char.ofNat (c.toNat + r.shift).toNat]
    | none => [c]

/-- Whether the first character that counts in a word is a letter with a case. -/
def meetsCased (cs : List Char) : Bool :=
  match cs.dropWhile isCaseIgnorable with
  | c :: _ => isCased c
  | [] => false

/-- The small letter of a sigma between what comes before it, last character first, and what comes
after it: the final one where a word ends. -/
def smallSigma (before after : List Char) : Char :=
  if meetsCased before && !meetsCased after then '\u03c2' else '\u03c3'

/-- The rest of a text in small letters.  `before` has the characters already passed, last first. -/
def lowercaseFrom (before : List Char) : List Char → List Char
  | [] => []
  | c :: cs =>
    (if c == capitalSigma then [smallSigma before cs] else smallLetter c)
      ++ lowercaseFrom (c :: before) cs

def lowercase (s : String) : String := String.ofList (lowercaseFrom [] s.toList)

end TreeScript.Text
