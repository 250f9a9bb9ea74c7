/-
# Tablature.Score.Encode — scores written as JSON.

Objects have their members in the order of the score format. Exact ticks are pairs of a numerator
and a positive denominator in lowest terms; pitches, durations and frets are texts.
-/
import Tablature.Score.Basic

namespace Tablature

open Json

/-- Writes an exact amount of time. -/
def encodeTicks (t : Ticks) : Value := .array [.int t.num, .nat t.den]

/-- Writes a font. -/
def Font.encode (f : Font) : Value :=
  .object
    [("family", .string f.family), ("size", .nat f.size), ("style", .option .string f.style)]

/-- Writes a pitch. -/
def Pitch.encode (p : Pitch) : Value := .string p.toText

/-- Writes a duration. -/
def Duration.encode (d : Duration) : Value := .string d.toText

/-- Writes a bar line. -/
def BarType.encode (b : BarType) : Value := .string b.name

/-- Writes a clef. -/
def Clef.encode (c : Clef) : Value := .string c.name

/-- Writes a transition of a bend. -/
def BendStep.encode (b : BendStep) : Value :=
  .object [("direction", .string b.direction.name), ("text", .string b.label)]

/-- Writes a mark. -/
def Modifier.encode : Modifier → Value
  | .bend phrase => .object [("type", .string "bend"), ("phrase", .list BendStep.encode phrase)]
  | .vibrato harsh => .object [("type", .string "vibrato"), ("harsh", .boolean harsh)]
  | .articulation code position =>
      .object
        [("type", .string "articulation"), ("code", .string code),
          ("position", .string position.name)]
  | .caption c =>
      .object
        [("type", .string "annotation"), ("text", .string c.text), ("font", c.font.encode),
          ("justify", .string c.side.name)]
  | .stroke s => .object [("type", .string "stroke"), ("kind", .string s.name)]
  | .accidental a cautionary =>
      .object
        [("type", .string "accidental"), ("accidental", .string a.symbol),
          ("cautionary", .boolean cautionary)]
  | .fingering label position =>
      .object
        [("type", .string "fingering"), ("label", .string label),
          ("position", .string position.name)]
  | .stringNumber label position =>
      .object
        [("type", .string "string_number"), ("label", .string label),
          ("position", .string position.name)]

/-- Writes an attached mark. -/
def Attached.encode (a : Attached) : Value :=
  .object [("index", .nat a.index), ("modifier", a.modifier.encode)]

/-- Writes a position on tablature. -/
def TabPosition.encode (p : TabPosition) : Value :=
  .object [("fret", .string p.fret.toText), ("string", .nat p.string)]

/-- The members of a note on tablature. -/
def TabNote.members (n : TabNote) : List (String × Value) :=
  [("positions", .list TabPosition.encode n.positions), ("duration", n.duration.encode),
    ("play_notes", .list Pitch.encode n.playNotes), ("stem", .boolean n.stem),
    ("ghost", .boolean n.ghost), ("tick_multiplier", encodeTicks n.multiplier),
    ("modifiers", .list Attached.encode n.modifiers)]

/-- The members of a note on a staff. -/
def StaffNote.members (n : StaffNote) : List (String × Value) :=
  [("keys", .list Pitch.encode n.keys), ("duration", n.duration.encode), ("rest", .boolean n.rest),
    ("clef", n.clef.encode), ("auto_stem", .boolean n.autoStem),
    ("play_notes", .list Pitch.encode n.playNotes), ("tick_multiplier", encodeTicks n.multiplier),
    ("modifiers", .list Attached.encode n.modifiers)]

/-- The members of a text. -/
def TextNote.members (t : TextNote) : List (String × Value) :=
  [("text", .string t.text), ("glyph", .option .string t.glyph), ("duration", t.duration.encode),
    ("font", t.font.encode), ("line", .int t.line),
    ("justification", .string t.justification.name), ("smooth", .boolean t.smooth),
    ("ignore_ticks", .boolean t.ignoresTicks), ("tick_multiplier", encodeTicks t.multiplier)]

/-- Writes a text. -/
def TextNote.encode (t : TextNote) : Value := .object t.members

/-- Writes an object of a voice. -/
def Tickable.encode : Tickable → Value
  | .tab n => .object (("kind", .string "tab") :: n.members)
  | .staff n => .object (("kind", .string "stave") :: n.members)
  | .bar type => .object [("kind", .string "bar"), ("bar_type", type.encode)]
  | .spacer duration multiplier =>
      .object
        [("kind", .string "ghost"), ("duration", duration.encode),
          ("tick_multiplier", encodeTicks multiplier)]
  | .text t => .object (("kind", .string "text") :: t.members)

/-- Writes a voice. -/
def encodeVoice (voice : List Tickable) : Value := .list Tickable.encode voice

/-- Writes a tablature view. -/
def TabView.encode (v : TabView) : Value :=
  .object
    [("x", .float v.x), ("y", .float v.y), ("width", .float v.width), ("num_lines", .nat v.lines),
      ("tab_glyph", .boolean v.glyph), ("note_start_x", .option .float v.noteStart),
      ("end_bar", .option BarType.encode v.endBar)]

/-- Writes a staff view. -/
def StaffView.encode (v : StaffView) : Value :=
  .object
    [("x", .float v.x), ("y", .float v.y), ("width", .float v.width),
      ("clef", .option Clef.encode v.clef), ("key", .string v.key),
      ("time", .option (fun t => .string t.toText) v.time),
      ("end_bar", .option BarType.encode v.endBar)]

/-- Writes a stave. -/
def Stave.encode (s : Stave) : Value :=
  .object
    [("tab", .option TabView.encode s.tab), ("notation", .option StaffView.encode s.staff),
      ("tab_voices", .list encodeVoice s.tabVoices),
      ("note_voices", .list encodeVoice s.staffVoices),
      ("tab_notes", encodeVoice s.tabNotes), ("note_notes", encodeVoice s.staffNotes),
      ("text_voices", .list (.list TextNote.encode) s.textVoices),
      ("beam_groups", .list (fun g => .string g.toText) s.beamGroups)]

/-- Writes the address of a note. -/
def NoteRef.encode (r : NoteRef) : Value :=
  .object [("stave", .nat r.stave), ("voice", .nat r.voice), ("index", .nat r.index)]

/-- The members of a link. -/
def Link.members (l : Link) : List (String × Value) :=
  [("first", l.first.encode), ("last", l.last.encode),
    ("first_indices", .list .nat l.firstIndices), ("last_indices", .list .nat l.lastIndices)]

/-- The members of a tuplet. -/
def Tuplet.members (t : Tuplet) : List (String × Value) :=
  [("notes", .list NoteRef.encode t.notes), ("num_notes", .nat t.count),
    ("notes_occupied", .nat t.occupied)]

/-- Writes a link on tablature. -/
def TabLink.encode : TabLink → Value
  | .slide link => .object (("type", .string "slide") :: link.members)
  | .tie link label =>
      .object
        [("type", .string "tie"), ("link", .object link.members), ("label", .string label)]
  | .tuplet t => .object (("type", .string "tuplet") :: t.members)

/-- Writes a link on a staff. -/
def StaffLink.encode : StaffLink → Value
  | .tie link => .object (("type", .string "tie") :: link.members)
  | .tuplet t => .object (("type", .string "tuplet") :: t.members)

/-- Writes a score. -/
def Score.encode (s : Score) : Value :=
  .object
    [("customizations", s.settings.encode), ("staves", .list Stave.encode s.staves),
      ("tab_articulations", .list TabLink.encode s.tabLinks),
      ("notation_articulations", .list StaffLink.encode s.staffLinks), ("height", .float s.height)]

end Tablature
