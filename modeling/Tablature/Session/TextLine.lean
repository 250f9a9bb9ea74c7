/-
# Tablature.Session.TextLine — the texts below a stave.

A text line is a list of tokens. Tokens that start with a point or a colon, and `++`, change how the
texts after them are written; every other token is a text, or a bar that takes no time.
-/
import Tablature.Session.Basic

namespace Tablature

namespace Session

/-- Starts a new text voice. -/
def addTextVoice (s : Session) : Outcome Cause Session :=
  s.withStave fun _ =>
    .done (s.onActive fun stave => { stave with textVoices := stave.textVoices ++ [[]] })

/-- Changes the font of texts. A text that is no font changes nothing. -/
def setTextFont (s : Session) (spec : String) : Outcome Cause Session :=
  .needing (Font.read spec) s fun font =>
    match font with
    | none => .done s
    | some font =>
        .done (s.withSettings
          { s.settings with
            fontFace := font.family, fontSize := font.size, fontStyle := font.style })

/-- How a text is written. -/
structure TextStyle where
  line : Int
  justification : Justification
  smooth : Bool
  ignoresTicks : Bool
  deriving DecidableEq, Repr

/-- The note of a text in the duration and font in force. -/
def textNote (s : Session) (text : String) (style : TextStyle) : TextNote :=
  { text
    glyph := (Text.afterStart? ['#'] text.toList).map String.ofList
    duration := s.duration
    font := s.captionFont
    line := style.line
    justification := style.justification
    smooth := style.smooth
    ignoresTicks := style.ignoresTicks
    multiplier := 1 }

/-- The voices with a note at the end of the last one. -/
def appendText (note : TextNote) (voices : List (List TextNote)) : List (List TextNote) :=
  voices.modify (voices.length - 1) (· ++ [note])

/-- Adds a text to the last text voice. -/
def addTextNote (s : Session) (text : String) (style : TextStyle) : Outcome Cause Session :=
  s.withStave fun stave =>
    if stave.textVoices.isEmpty then .stopped s .noTextVoice
    else
      .done (s.onActive fun stave =>
        { stave with textVoices := appendText (s.textNote text style) stave.textVoices })

end Session

/-! ## Tokens -/

/-- One token of a text line. -/
inductive TextCommand
  | font (spec : String)
  | duration (text : String)
  | justify (justification : Justification)
  | smooth (smooth : Bool)
  | bar
  | line (line : Int)
  | voice
  | text (text : String) (ignoresTicks : Bool)
  | wrong (token : String)
  deriving DecidableEq, Repr

namespace TextCommand

/-- A setting: what follows the point of a token. -/
def ofSetting (token setting : List Char) : TextCommand :=
  let word := String.ofList setting
  if word = "center" then .justify .center
  else if word = "left" then .justify .left
  else if word = "right" then .justify .right
  else if word = "strict" then .smooth false
  else if word = "smooth" then .smooth true
  else if word = "bar" || word = "|" then .bar
  else match Text.Numeral.readInt32 setting with
    | some n => .line n
    | none => .wrong (String.ofList token)

/-- What a token without blanks around it means. The forms are tried in this order. -/
def ofChars (token : List Char) : TextCommand :=
  match Text.afterStart? ".font=".toList token with
  | some spec => .font (String.ofList spec)
  | none =>
      match token with
      | ':' :: _ => .duration (String.ofList token)
      | '.' :: setting => ofSetting token setting
      | ['|'] => .bar
      | '+' :: '+' :: _ => .voice
      | '|' :: rest => .text (String.ofList rest) true
      | _ => .text (String.ofList token) false

/-- What a token means; blanks around it do not matter. -/
def read (token : String) : TextCommand := ofChars (Text.trim token.toList)

end TextCommand

/-- The state of a text line: the session, and how the next text is written. -/
structure TextLine where
  session : Session
  line : Int
  justification : Justification
  smooth : Bool

namespace TextLine

/-- At the start of a line. -/
def start (s : Session) : TextLine :=
  { session := s, line := 0, justification := .center, smooth := true }

/-- An operation on the session of a line. -/
def onSession (t : TextLine) (o : Outcome Cause Session) : Outcome Cause TextLine :=
  o.mapState fun s => { t with session := s }

/-- One token. A bar is an empty text that takes no time. -/
def run (t : TextLine) : TextCommand → Outcome Cause TextLine
  | .font spec => t.onSession (t.session.setTextFont spec)
  | .duration text => t.onSession (t.session.setDuration text false)
  | .justify justification => .done { t with justification := justification }
  | .smooth smooth => .done { t with smooth := smooth }
  | .bar => t.onSession (t.session.addTextNote "" ⟨0, t.justification, false, true⟩)
  | .line line => .done { t with line := line }
  | .voice => t.onSession t.session.addTextVoice
  | .text text ignoresTicks =>
      t.onSession (t.session.addTextNote text ⟨t.line, t.justification, t.smooth, ignoresTicks⟩)
  | .wrong token => .stopped t (.badTextSetting token)

end TextLine

/-- Writes a text line on the active stave, starting a text voice. -/
def Session.addTextLine (s : Session) (tokens : List String) : Outcome Cause Session :=
  s.addTextVoice.andThen fun s =>
    (Outcome.forEach (fun token t => TextLine.run t (TextCommand.read token)) tokens
      (TextLine.start s)).mapState TextLine.session

end Tablature
