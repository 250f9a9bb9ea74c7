/-
# Tablature.Settings.Instrument — the instruments of playback.
-/
import Tablature.Fault

namespace Tablature

/-- An instrument of General MIDI that a score may be played on. -/
inductive Instrument
  | acousticGrandPiano
  | acousticGuitarNylon
  | acousticGuitarSteel
  | electricGuitarJazz
  | distortionGuitar
  | electricBassFinger
  | electricBassPick
  | trumpet
  | brassSection
  | sopranoSax
  | altoSax
  | tenorSax
  | baritoneSax
  | flute
  | synthDrum
  deriving DecidableEq, Repr

namespace Instrument

/-- The instruments in the order of their programs. -/
def all : List Instrument :=
  [acousticGrandPiano, acousticGuitarNylon, acousticGuitarSteel, electricGuitarJazz,
    distortionGuitar, electricBassFinger, electricBassPick, trumpet, brassSection, sopranoSax,
    altoSax, tenorSax, baritoneSax, flute, synthDrum]

/-- The name of an instrument. -/
def name : Instrument → String
  | acousticGrandPiano => "acoustic_grand_piano"
  | acousticGuitarNylon => "acoustic_guitar_nylon"
  | acousticGuitarSteel => "acoustic_guitar_steel"
  | electricGuitarJazz => "electric_guitar_jazz"
  | distortionGuitar => "distortion_guitar"
  | electricBassFinger => "electric_bass_finger"
  | electricBassPick => "electric_bass_pick"
  | trumpet => "trumpet"
  | brassSection => "brass_section"
  | sopranoSax => "soprano_sax"
  | altoSax => "alto_sax"
  | tenorSax => "tenor_sax"
  | baritoneSax => "baritone_sax"
  | flute => "flute"
  | synthDrum => "synth_drum"

/-- The General MIDI program of an instrument. -/
def program : Instrument → Nat
  | acousticGrandPiano => 0
  | acousticGuitarNylon => 24
  | acousticGuitarSteel => 25
  | electricGuitarJazz => 26
  | distortionGuitar => 30
  | electricBassFinger => 33
  | electricBassPick => 34
  | trumpet => 56
  | brassSection => 61
  | sopranoSax => 64
  | altoSax => 65
  | tenorSax => 66
  | baritoneSax => 67
  | flute => 73
  | synthDrum => 118

/-- Reads the name of an instrument, exactly as it is written. -/
def read (text : String) : Except Cause Instrument :=
  match all.find? (·.name == text) with
  | some i => .ok i
  | none => .error (.unknownInstrument text)

end Instrument

end Tablature
