/-
# Tablature.Key.Signature — keys, scales and the spelling of scale tones.

A key is a root and a mode, written as in `F#m`. Its scale takes one letter after the other from the
root's, and each tone of the scale is spelled with its letter.
-/
import Tablature.Pitch.NoteName

namespace Tablature

/-- The keys that a stave may declare, as they are written. -/
def knownKeys : List String :=
  ["C", "Am", "F", "Dm", "Bb", "Gm", "Eb", "Cm", "Ab", "Fm", "Db", "Bbm", "Gb", "Ebm", "Cb",
    "Abm", "G", "Em", "D", "Bm", "A", "F#m", "E", "C#m", "B", "G#m", "F#", "D#m", "C#", "A#m"]

/-- May a stave declare this key? -/
def isKnownKey (key : String) : Bool := knownKeys.contains key

/-- The steps of a scale, the last one leading back to the root. -/
def majorSteps : List Int := [2, 2, 1, 2, 2, 2, 1]

/-- The steps of the natural minor scale. -/
def minorSteps : List Int := [2, 1, 2, 2, 1, 2, 2]

/-- The tones that the steps lead through, starting at the root. -/
def scaleTones (root : Int) : List Int → List Int
  | [] => []
  | step :: steps => root % 12 :: scaleTones (root + step) steps

/-- Spells a tone with a given letter. The two must not be more than a whole tone apart. -/
def spellWith (letter : Letter) (value : Int) : Except Cause NoteName :=
  let above := (value - letter.semitones) % 12
  let interval := if 6 < above then above - 12 else above
  if 2 < interval.natAbs then .error (.unrelatedNotes letter.char value)
  else .ok ⟨letter, Accidental.ofOffset? interval⟩

/-- A root and a mode. -/
structure KeySignature where
  root : NoteName
  minor : Bool
  deriving DecidableEq, Repr

namespace KeySignature

/-- The mode at the end of a key: nothing for major, `m` for minor. -/
def readMode : List Char → Option Bool
  | [] => some false
  | ['m'] => some true
  | _ => none

/-- The key that a text in small letters stands for. -/
def ofChars? : List Char → Option KeySignature
  | [] => none
  | c :: rest =>
      match Letter.ofChar? c with
      | none => none
      | some letter =>
          match rest with
          | 'b' :: mode => (readMode mode).map fun minor => ⟨⟨letter, some .flat⟩, minor⟩
          | '#' :: mode => (readMode mode).map fun minor => ⟨⟨letter, some .sharp⟩, minor⟩
          | mode => (readMode mode).map fun minor => ⟨⟨letter, none⟩, minor⟩

/-- Reads a key: blanks around it and capitals do not matter. -/
def read (text : String) : Except Cause KeySignature :=
  match ofChars? (Text.lower (Text.trim text.toList)) with
  | some k => .ok k
  | none => .error (.badKey text)

/-- The steps of the key's scale. -/
def steps (k : KeySignature) : List Int := if k.minor then minorSteps else majorSteps

/-- The tones of the key's scale. -/
def tones (k : KeySignature) : List Int := scaleTones k.root.pitchClass.val k.steps

/-- The tones of the key's scale, each spelled with its letter. -/
def spelledTones (k : KeySignature) : Except Cause (List NoteName) :=
  ((List.range 7).zip k.tones).mapM fun (i, tone) => spellWith (k.root.letter.step i) tone

end KeySignature

end Tablature
