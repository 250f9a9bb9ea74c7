/-
# Tablature.Proofs.Options — options are independent settings.

An option has a key and changes the one field of this key; it neither reads nor changes another.
This is all that an `OptionTable` says of a kind of options, and all that is needed for the law of a
list of them: when every entry can be read, each field holds the value of the last entry with its
key, and what it held before if there is none (`LastWins`). Only the order of entries of one key
matters (`SameByKey`). Both kinds of options have such a table, those of a score and those of a
stave, and both obey the law (`options_are_independent`).
-/
import Mathlib.Data.List.Nodup
import Tablature.Session.Basic
import Tablature.Settings.StaveDeclaration

namespace Tablature

/-! ## Entries -/

/-- The value of the last entry with a key. -/
def lastValue? (key : String) (entries : List (String × String)) : Option String :=
  ((entries.filter (·.1 == key)).getLast?).map (·.2)

theorem lastValue?_cons (key : String) (entry : String × String)
    (entries : List (String × String)) :
    lastValue? key (entry :: entries) =
      (lastValue? key entries).or (if entry.1 = key then some entry.2 else none) := by
  unfold lastValue?
  by_cases hkey : entry.1 = key
  · rw [List.filter_cons_of_pos (by simpa using hkey), List.getLast?_cons, if_pos hkey]
    cases (entries.filter (·.1 == key)).getLast? <;> rfl
  · rw [List.filter_cons_of_neg (by simpa using hkey), if_neg hkey, Option.or_none]

/-- Two lists have the same entries of every key in the same order; how the entries of different
keys are mixed is left open. -/
def SameByKey (entries entries' : List (String × String)) : Prop :=
  ∀ key, entries.filter (·.1 == key) = entries'.filter (·.1 == key)

namespace SameByKey

variable {entries entries' : List (String × String)}

theorem symm (h : SameByKey entries entries') : SameByKey entries' entries :=
  fun key => (h key).symm

/-- Neighbours with different keys may change places. -/
theorem swap {a b : String × String} (hne : a.1 ≠ b.1) (before after : List (String × String)) :
    SameByKey (before ++ a :: b :: after) (before ++ b :: a :: after) := by
  intro key
  rw [List.filter_append, List.filter_append]
  refine congrArg _ ?_
  by_cases ha : a.1 = key
  · have hb : b.1 ≠ key := fun hb => hne (ha.trans hb.symm)
    simp [ha, hb]
  · simp [List.filter_cons, ha]

theorem mem (h : SameByKey entries entries') {entry : String × String} (hmem : entry ∈ entries) :
    entry ∈ entries' := by
  have hfilter : entry ∈ entries.filter (·.1 == entry.1) :=
    List.mem_filter.2 ⟨hmem, beq_self_eq_true _⟩
  rw [h entry.1] at hfilter
  exact (List.mem_filter.1 hfilter).1

theorem lastValue?_eq (h : SameByKey entries entries') (key : String) :
    lastValue? key entries = lastValue? key entries' := by
  rw [lastValue?, lastValue?, h key]

end SameByKey

/-! ## Tables -/

/-- A kind of options for a record: what they are called, how they are read, and which field of the
record each of them changes. -/
structure OptionTable (Record Opt Field : Type) [DecidableEq Field] where
  read : String → String → Except Cause Opt
  assign : Record → Opt → Record
  /-- The field that an option changes. -/
  field : Opt → Field
  key : Field → String
  /-- What a field holds, as the option that would set it, if there is one. -/
  get : Record → Field → Option Opt
  /-- Under its key only a field's own options are read. -/
  key_of_read : ∀ {k value : String} {o : Opt}, read k value = .ok o → key (field o) = k
  key_injective : ∀ {f g : Field}, key f = key g → f = g
  get_assign : ∀ (r : Record) (o : Opt) (f : Field),
    get (assign r o) f = if field o = f then some o else get r f
  /-- A record is made of its fields. -/
  ext : ∀ {r r' : Record}, (∀ f, get r f = get r' f) → r = r'

namespace OptionTable

variable {Record Opt Field : Type} [DecidableEq Field] (T : OptionTable Record Opt Field)

/-- The value of an entry can be read. -/
def Valid (entry : String × String) : Prop := ∃ o, T.read entry.1 entry.2 = .ok o

/-- **The last entry wins**: a field for whose key there are entries holds what is read from the
last of them, and every other field what it held before. -/
structure LastWins (entries : List (String × String)) (before after : Record) : Prop where
  set : ∀ f value, lastValue? (T.key f) entries = some value →
    ∃ o, T.read (T.key f) value = .ok o ∧ T.get after f = some o
  kept : ∀ f, lastValue? (T.key f) entries = none → T.get after f = T.get before f

namespace LastWins

variable {T} {entries entries' : List (String × String)} {r s t : Record}

theorem nil : T.LastWins [] r r := ⟨fun _ _ h => (nomatch h), fun _ _ => rfl⟩

theorem cons {entry : String × String} {o : Opt} (hread : T.read entry.1 entry.2 = .ok o)
    (h : T.LastWins entries (T.assign r o) t) : T.LastWins (entry :: entries) r t where
  set := fun f value hlast => by
    rw [lastValue?_cons] at hlast
    cases hlater : lastValue? (T.key f) entries with
    | some later =>
        rw [hlater, Option.some_or] at hlast
        cases hlast
        exact h.set f value hlater
    | none =>
        rw [hlater, Option.none_or] at hlast
        split at hlast
        · rename_i hkey
          cases hlast
          have hfield : T.field o = f := T.key_injective ((T.key_of_read hread).trans hkey)
          refine ⟨o, hkey ▸ hread, ?_⟩
          rw [h.kept f hlater, T.get_assign, if_pos hfield]
        · cases hlast
  kept := fun f hlast => by
    rw [lastValue?_cons, Option.or_eq_none_iff] at hlast
    obtain ⟨hlater, hkey⟩ := hlast
    have hfield : T.field o ≠ f := by
      rintro rfl
      rw [if_pos (T.key_of_read hread).symm] at hkey
      cases hkey
    rw [h.kept f hlater, T.get_assign, if_neg hfield]

/-- The law determines the record. -/
theorem unique (hs : T.LastWins entries r s) (ht : T.LastWins entries r t) : s = t := by
  refine T.ext fun f => ?_
  cases hlast : lastValue? (T.key f) entries with
  | none => rw [hs.kept f hlast, ht.kept f hlast]
  | some value =>
      obtain ⟨o, hread, hget⟩ := hs.set f value hlast
      obtain ⟨o', hread', hget'⟩ := ht.set f value hlast
      cases hread.symm.trans hread'
      rw [hget, hget']

theorem of_sameByKey (h : SameByKey entries entries') (ht : T.LastWins entries r t) :
    T.LastWins entries' r t where
  set := fun f value hlast => ht.set f value ((h.lastValue?_eq _).trans hlast)
  kept := fun f hlast => ht.kept f ((h.lastValue?_eq _).trans hlast)

end LastWins

/-- A list of entries that cannot all be read has a first one that cannot. -/
theorem exists_first_invalid {entries : List (String × String)}
    (h : ∃ entry ∈ entries, ¬ T.Valid entry) :
    ∃ before bad after cause, entries = before ++ bad :: after ∧
      (∀ entry ∈ before, T.Valid entry) ∧ T.read bad.1 bad.2 = .error cause := by
  induction entries with
  | nil =>
      obtain ⟨entry, hmem, -⟩ := h
      cases hmem
  | cons first entries ih =>
      cases hread : T.read first.1 first.2 with
      | error cause => exact ⟨[], first, entries, cause, rfl, List.forall_mem_nil _, hread⟩
      | ok o =>
          have hfirst : T.Valid first := ⟨o, hread⟩
          have hrest : ∃ entry ∈ entries, ¬ T.Valid entry := by
            obtain ⟨entry, hmem, hinvalid⟩ := h
            rcases List.mem_cons.1 hmem with rfl | hmem
            · exact absurd hfirst hinvalid
            · exact ⟨entry, hmem, hinvalid⟩
          obtain ⟨before, bad, after, cause, rfl, hbefore, hbad⟩ := ih hrest
          exact ⟨first :: before, bad, after, cause, rfl,
            List.forall_mem_cons.2 ⟨hfirst, hbefore⟩, hbad⟩

end OptionTable

/-! ## The options of a score -/

/-- The fields of the settings. -/
inductive SettingField
  | fontFace | fontSize | fontStyle | annotationSide | scale | width | staveDistance | space
  | player | tempo | instrument | accidentals | tabStems | tabStemDirection | beamRests
  | beamStemlets | beamMiddleOnly | connectorSpace
  deriving DecidableEq, Repr

/-- The fields of the settings, in a list. -/
def SettingField.all : List SettingField :=
  [fontFace, fontSize, fontStyle, annotationSide, scale, width, staveDistance, space, player, tempo,
    instrument, accidentals, tabStems, tabStemDirection, beamRests, beamStemlets, beamMiddleOnly,
    connectorSpace]

/-- The key of a field of the settings. -/
def SettingField.key : SettingField → String
  | fontFace => "font-face"
  | fontSize => "font-size"
  | fontStyle => "font-style"
  | annotationSide => "annotation-position"
  | scale => "scale"
  | width => "width"
  | staveDistance => "stave-distance"
  | space => "space"
  | player => "player"
  | tempo => "tempo"
  | instrument => "instrument"
  | accidentals => "accidentals"
  | tabStems => "tab-stems"
  | tabStemDirection => "tab-stem-direction"
  | beamRests => "beam-rests"
  | beamStemlets => "beam-stemlets"
  | beamMiddleOnly => "beam-middle-only"
  | connectorSpace => "connector-space"

/-- The field that a setting changes. -/
def Setting.field : Setting → SettingField
  | fontFace _ => .fontFace
  | fontSize _ => .fontSize
  | fontStyle _ => .fontStyle
  | annotationSide _ => .annotationSide
  | scale _ => .scale
  | width _ => .width
  | staveDistance _ => .staveDistance
  | space _ => .space
  | player _ => .player
  | tempo _ => .tempo
  | instrument _ => .instrument
  | accidentals _ => .accidentals
  | tabStems _ => .tabStems
  | tabStemDirection _ => .tabStemDirection
  | beamRests _ => .beamRests
  | beamStemlets _ => .beamStemlets
  | beamMiddleOnly _ => .beamMiddleOnly
  | connectorSpace _ => .connectorSpace

/-- What a field of the settings holds. -/
def Settings.get (s : Settings) : SettingField → Setting
  | .fontFace => .fontFace s.fontFace
  | .fontSize => .fontSize s.fontSize
  | .fontStyle => .fontStyle s.fontStyle
  | .annotationSide => .annotationSide s.annotationSide
  | .scale => .scale s.scale
  | .width => .width s.width
  | .staveDistance => .staveDistance s.staveDistance
  | .space => .space s.space
  | .player => .player s.player
  | .tempo => .tempo s.tempo
  | .instrument => .instrument s.instrument
  | .accidentals => .accidentals s.accidentals
  | .tabStems => .tabStems s.tabStems
  | .tabStemDirection => .tabStemDirection s.tabStemDirection
  | .beamRests => .beamRests s.beamRests
  | .beamStemlets => .beamStemlets s.beamStemlets
  | .beamMiddleOnly => .beamMiddleOnly s.beamMiddleOnly
  | .connectorSpace => .connectorSpace s.connectorSpace

namespace Setting

theorem checked_eq_ok {α : Type} {key value : String} {setting : α → Setting} {a? : Option α}
    {c : Setting} (h : checked key value setting a? = .ok c) : ∃ a, c = setting a := by
  cases a? with
  | none => cases h
  | some a => exact ⟨a, (Except.ok.inj h).symm⟩

theorem checked_eq_error {α : Type} {key value : String} {setting : α → Setting} {a? : Option α}
    {cause : Cause} (h : checked key value setting a? = .error cause) :
    cause = .badOptionValue key value := by
  cases a? with
  | none => exact (Except.error.inj h).symm
  | some a => cases h

theorem key_of_read {key value : String} {c : Setting} (h : read key value = .ok c) :
    c.field.key = key := by
  unfold read at h
  split at h
  -- A name of a font or of a style can always be read.
  case h_1 | h_3 =>
    cases h
    rfl
  case h_11 =>
    cases hread : Instrument.read value with
    | error cause => simp [hread, Except.map] at h
    | ok i =>
        rw [hread] at h
        cases h
        rfl
  case h_19 => cases h
  all_goals
    obtain ⟨a, rfl⟩ := checked_eq_ok h
    rfl

/-- A wrong option of a score is reported as that. -/
theorem kind_of_read {key value : String} {cause : Cause} (h : read key value = .error cause) :
    cause.kind = .config := by
  unfold read at h
  split at h
  case h_1 | h_3 => cases h
  case h_11 =>
    unfold Instrument.read at h
    split at h
    · cases h
    · cases h
      rfl
  case h_19 =>
    cases h
    rfl
  all_goals
    rw [checked_eq_error h]
    rfl

end Setting

theorem SettingField.key_injective {f g : SettingField} (h : f.key = g.key) : f = g := by
  have mem_all (f : SettingField) : f ∈ all := by cases f <;> decide
  have hnodup : (all.map key).Nodup := by decide
  exact List.inj_on_of_nodup_map hnodup (mem_all f) (mem_all g) h

theorem Settings.ext_get {s t : Settings} (h : ∀ f, s.get f = t.get f) : s = t := by
  cases s
  cases t
  rw [Settings.mk.injEq]
  exact ⟨Setting.fontFace.inj (h .fontFace), Setting.fontSize.inj (h .fontSize),
    Setting.fontStyle.inj (h .fontStyle), Setting.annotationSide.inj (h .annotationSide),
    Setting.scale.inj (h .scale), Setting.width.inj (h .width),
    Setting.staveDistance.inj (h .staveDistance), Setting.space.inj (h .space),
    Setting.player.inj (h .player), Setting.tempo.inj (h .tempo),
    Setting.instrument.inj (h .instrument), Setting.accidentals.inj (h .accidentals),
    Setting.tabStems.inj (h .tabStems), Setting.tabStemDirection.inj (h .tabStemDirection),
    Setting.beamRests.inj (h .beamRests), Setting.beamStemlets.inj (h .beamStemlets),
    Setting.beamMiddleOnly.inj (h .beamMiddleOnly), Setting.connectorSpace.inj (h .connectorSpace)⟩

/-- The options of a score. -/
def Settings.table : OptionTable Settings Setting SettingField where
  read := Setting.read
  assign := Settings.assign
  field := Setting.field
  key := SettingField.key
  get := fun s f => some (s.get f)
  key_of_read := Setting.key_of_read
  key_injective := SettingField.key_injective
  get_assign := fun s c f => by
    cases c <;> cases f <;> rfl
  ext := fun h => Settings.ext_get fun f => Option.some.inj (h f)

namespace Session

/-- Options that can all be read are set, the last one of each key. -/
theorem forEach_setOption_of_valid {entries : List (String × String)}
    (h : ∀ entry ∈ entries, Settings.table.Valid entry) (s : Session) :
    ∃ settings, Settings.table.LastWins entries s.settings settings ∧
      Outcome.forEach setOption entries s = .done (s.withSettings settings) := by
  induction entries generalizing s with
  | nil => exact ⟨s.settings, .nil, rfl⟩
  | cons entry entries ih =>
      obtain ⟨⟨c, hread⟩, hrest⟩ := List.forall_mem_cons.1 h
      have hset : setOption entry s = .done (s.withSettings (s.settings.assign c)) := by
        rw [setOption, Settings.set, show Setting.read entry.1 entry.2 = .ok c from hread]
        rfl
      obtain ⟨settings, hwins, hsets⟩ := ih hrest (s.withSettings (s.settings.assign c))
      refine ⟨settings, .cons hread hwins, ?_⟩
      rw [Outcome.forEach_cons, hset, Outcome.andThen_done, hsets]
      rfl

/-- **The options of a score are independent settings.** -/
structure OptionsIndependent (s : Session) : Prop where
  /-- Entries that can all be read are all carried out; of each key the last one stays. -/
  valid : ∀ entries, (∀ entry ∈ entries, Settings.table.Valid entry) →
    ∃ settings, Settings.table.LastWins entries s.settings settings ∧
      s.setOptions entries = .done (s.withSettings settings).addSpace
  /-- Otherwise those before the first that cannot be read are carried out, and nothing else
  happens: the session has other settings and is as it was. -/
  invalid : ∀ entries, (∃ entry ∈ entries, ¬ Settings.table.Valid entry) →
    ∃ before bad after cause settings, entries = before ++ bad :: after ∧
      (∀ entry ∈ before, Settings.table.Valid entry) ∧
      Setting.read bad.1 bad.2 = .error cause ∧ cause.kind = .config ∧
      Settings.table.LastWins before s.settings settings ∧
      s.setOptions entries = .stopped (s.withSettings settings) cause
  /-- Entries of different keys may be written in any order. -/
  commute : ∀ entries entries', SameByKey entries entries' →
    (∀ entry ∈ entries, Settings.table.Valid entry) →
    s.setOptions entries = s.setOptions entries'

theorem optionsIndependent (s : Session) : s.OptionsIndependent := by
  have valid (entries : List (String × String))
      (h : ∀ entry ∈ entries, Settings.table.Valid entry) :
      ∃ settings, Settings.table.LastWins entries s.settings settings ∧
        s.setOptions entries = .done (s.withSettings settings).addSpace := by
    obtain ⟨settings, hwins, hsets⟩ := forEach_setOption_of_valid h s
    refine ⟨settings, hwins, ?_⟩
    rw [setOptions, hsets, Outcome.andThen_done]
  refine ⟨valid, ?_, ?_⟩
  · intro entries h
    obtain ⟨before, bad, after, cause, rfl, hbefore, hbad⟩ :=
      Settings.table.exists_first_invalid h
    obtain ⟨settings, hwins, hsets⟩ := forEach_setOption_of_valid hbefore s
    refine ⟨before, bad, after, cause, settings, rfl, hbefore, hbad, Setting.kind_of_read hbad,
      hwins, ?_⟩
    have hstops : setOption bad (s.withSettings settings) =
        .stopped (s.withSettings settings) cause := by
      rw [setOption, Settings.set, show Setting.read bad.1 bad.2 = .error cause from hbad]
      rfl
    rw [setOptions, Outcome.forEach_append, hsets, Outcome.andThen_done, Outcome.forEach_cons,
      hstops, Outcome.andThen_stopped, Outcome.andThen_stopped]
  · intro entries entries' hsame h
    have h' : ∀ entry ∈ entries', Settings.table.Valid entry :=
      fun entry hmem => h entry (hsame.symm.mem hmem)
    obtain ⟨settings, hwins, hsets⟩ := valid entries h
    obtain ⟨settings', hwins', hsets'⟩ := valid entries' h'
    rw [hsets, hsets', (hwins.of_sameByKey hsame).unique hwins']

end Session

/-! ## The options of a stave -/

/-- The fields of a declaration. -/
inductive DeclarationField
  | staff | tablature | tuning | clef | key | time | strings | placement
  deriving DecidableEq, Repr

namespace DeclarationField

/-- The fields of a declaration, in a list. -/
def all : List DeclarationField := [staff, tablature, tuning, clef, key, time, strings, placement]

/-- The name of a field of a declaration among the options. -/
def name : DeclarationField → String
  | staff => "notation"
  | tablature => "tablature"
  | tuning => "tuning"
  | clef => "clef"
  | key => "key"
  | time => "time"
  | strings => "strings"
  | placement => "voice"

theorem name_injective {f g : DeclarationField} (h : f.name = g.name) : f = g := by
  have mem_all (f : DeclarationField) : f ∈ all := by cases f <;> decide
  have hnodup : (all.map name).Nodup := by decide
  exact List.inj_on_of_nodup_map hnodup (mem_all f) (mem_all g) h

end DeclarationField

/-- The field that an option changes. -/
def StaveOption.field : StaveOption → DeclarationField
  | staff _ => .staff
  | tablature _ => .tablature
  | tuning _ => .tuning
  | clef _ => .clef
  | key _ => .key
  | time _ => .time
  | strings _ => .strings
  | placement _ => .placement

theorem StaveOption.name_of_read {key value : String} {o : StaveOption}
    (h : read key value = .ok o) : o.field.name = key := by
  unfold read at h
  split at h
  case h_1 | h_2 =>
    unfold readVisibility at h
    (repeat' split at h) <;> cases h <;> rfl
  case h_3 =>
    unfold readKey at h
    split at h <;> cases h
    rfl
  case h_4 =>
    unfold readClef at h
    (repeat' split at h) <;> cases h <;> rfl
  case h_5 =>
    unfold readPlacement at h
    (repeat' split at h) <;> cases h <;> rfl
  case h_6 =>
    cases hread : TimeSignature.read value <;> rw [hread] at h <;> cases h
    rfl
  case h_7 =>
    cases hread : Tuning.read value <;> rw [hread] at h <;> cases h
    rfl
  case h_8 =>
    unfold readStrings at h
    (repeat' split at h) <;> cases h
    rfl
  case h_9 => cases h

namespace StaveDeclaration

theorem isVisible_iff {d : StaveDeclaration} :
    d.isVisible ↔ d.staff = true ∨ d.tablature = true := Bool.or_eq_true_iff

/-- What a field of a declaration holds; there is no option for no time signature, nor for no
placement. -/
def get (d : StaveDeclaration) : DeclarationField → Option StaveOption
  | .staff => some (.staff d.staff)
  | .tablature => some (.tablature d.tablature)
  | .tuning => some (.tuning d.tuning)
  | .clef => some (.clef d.clef)
  | .key => some (.key d.key)
  | .time => d.time.map .time
  | .strings => some (.strings d.strings)
  | .placement => d.placement.map .placement

theorem ext_get {d e : StaveDeclaration} (h : ∀ f, d.get f = e.get f) : d = e := by
  have htime : d.time = e.time :=
    Option.map_injective (fun _ _ => StaveOption.time.inj) (h .time)
  have hplacement : d.placement = e.placement :=
    Option.map_injective (fun _ _ => StaveOption.placement.inj) (h .placement)
  cases d
  cases e
  rw [StaveDeclaration.mk.injEq]
  exact ⟨StaveOption.staff.inj (Option.some.inj (h .staff)),
    StaveOption.tablature.inj (Option.some.inj (h .tablature)),
    StaveOption.tuning.inj (Option.some.inj (h .tuning)),
    StaveOption.clef.inj (Option.some.inj (h .clef)),
    StaveOption.key.inj (Option.some.inj (h .key)), htime,
    StaveOption.strings.inj (Option.some.inj (h .strings)), hplacement⟩

/-- The options of a stave. -/
def table : OptionTable StaveDeclaration StaveOption DeclarationField where
  read := StaveOption.read
  assign := assign
  field := StaveOption.field
  key := DeclarationField.name
  get := get
  key_of_read := StaveOption.name_of_read
  key_injective := DeclarationField.name_injective
  get_assign := fun d o f => by
    cases o <;> cases f <;> rfl
  ext := ext_get

/-- The options of a list without their places. -/
def pairs (entries : List OptionEntry) : List (String × String) :=
  entries.map fun entry => (entry.key, entry.value)

/-- Options that can all be read are applied, the last one of each key. -/
theorem lastWins_of_readOptions {entries : List OptionEntry}
    {options : List (OptionEntry × StaveOption)} (h : readOptions entries = .ok options)
    (d : StaveDeclaration) :
    table.LastWins (pairs entries) d ((options.map (·.2)).foldl assign d) := by
  induction entries generalizing options d with
  | nil =>
      cases h
      exact .nil
  | cons entry entries ih =>
      rw [readOptions] at h
      split at h
      · cases h
      · rename_i o hread
        cases hrest : readOptions entries with
        | error fault => simp [hrest, Except.map] at h
        | ok rest =>
            rw [hrest] at h
            cases h
            exact .cons hread (ih hrest (d.assign o))

theorem readOptions_eq_ok_iff {entries : List OptionEntry} :
    (∃ options, readOptions entries = .ok options) ↔
      ∀ entry ∈ pairs entries, table.Valid entry := by
  induction entries with
  | nil => exact ⟨fun _ => List.forall_mem_nil _, fun _ => ⟨[], rfl⟩⟩
  | cons entry entries ih =>
      rw [pairs, List.map_cons, List.forall_mem_cons, ← pairs, ← ih, readOptions]
      cases hread : StaveOption.read entry.key entry.value with
      | error cause =>
          have hinvalid : ¬ table.Valid (entry.key, entry.value) := by
            rintro ⟨o, ho⟩
            cases hread.symm.trans ho
          simp [hinvalid]
      | ok o =>
          have hvalid : table.Valid (entry.key, entry.value) := ⟨o, hread⟩
          cases readOptions entries <;> simp [hvalid, Except.map]

end StaveDeclaration

open StaveDeclaration

/-- **The options of a stave are independent settings.** -/
structure StaveKind.OptionsIndependent (kind : StaveKind) : Prop where
  /-- Options that can all be read result in a declaration. -/
  result : ∀ entries, (∀ entry ∈ pairs entries, table.Valid entry) →
    ∃ d, table.LastWins (pairs entries) (defaults kind) d
  /-- It is accepted unless it hides both views, and nothing else is. -/
  accepted : ∀ entries d, ofOptions kind entries = .ok d ↔
    (∀ entry ∈ pairs entries, table.Valid entry) ∧
      table.LastWins (pairs entries) (defaults kind) d ∧ (d.staff = true ∨ d.tablature = true)
  /-- Entries of different keys may be written in any order. -/
  commute : ∀ entries entries', SameByKey (pairs entries) (pairs entries') →
    ∀ d, ofOptions kind entries = .ok d ↔ ofOptions kind entries' = .ok d

theorem StaveKind.optionsIndependent (kind : StaveKind) : kind.OptionsIndependent := by
  have result (entries : List OptionEntry) (h : ∀ entry ∈ pairs entries, table.Valid entry) :
      ∃ d, table.LastWins (pairs entries) (defaults kind) d := by
    obtain ⟨options, hread⟩ := readOptions_eq_ok_iff.2 h
    exact ⟨_, lastWins_of_readOptions hread _⟩
  have accepted (entries : List OptionEntry) (d : StaveDeclaration) :
      ofOptions kind entries = .ok d ↔
        (∀ entry ∈ pairs entries, table.Valid entry) ∧
          table.LastWins (pairs entries) (defaults kind) d ∧
          (d.staff = true ∨ d.tablature = true) := by
    rw [ofOptions, ← readOptions_eq_ok_iff]
    cases hread : readOptions entries with
    | error fault => simp
    | ok options =>
        have hwins := lastWins_of_readOptions hread (defaults kind)
        constructor
        · intro h
          dsimp only at h
          split at h
          · rename_i hshown
            cases h
            exact ⟨⟨options, rfl⟩, hwins, isVisible_iff.1 hshown⟩
          · cases h
        · rintro ⟨-, hd, hshown⟩
          cases hwins.unique hd
          dsimp only
          rw [if_pos (isVisible_iff.2 hshown)]
  refine ⟨result, accepted, fun entries entries' hsame d => ?_⟩
  have valid_of {entries entries' : List OptionEntry}
      (hsame : SameByKey (pairs entries) (pairs entries')) {d : StaveDeclaration}
      (h : ofOptions kind entries = .ok d) : ofOptions kind entries' = .ok d := by
    obtain ⟨hvalid, hwins, hshown⟩ := (accepted entries d).1 h
    exact (accepted entries' d).2 ⟨fun entry hmem => hvalid entry (hsame.symm.mem hmem),
      hwins.of_sameByKey hsame, hshown⟩
  exact ⟨valid_of hsame, valid_of hsame.symm⟩

/-- **Options are independent settings.** In every session, and over the defaults of every kind of
declaration, options are carried out in order and decide a field each: the one of their key, of
which the last one stays. Options of different keys commute. The options of a score stop at the
first that cannot be read, with those before it carried out and the cursor where it was. The options
of a stave are accepted when all can be read and one of the two views is left to be seen. -/
theorem options_are_independent (s : Session) (kind : StaveKind) :
    s.OptionsIndependent ∧ kind.OptionsIndependent :=
  ⟨s.optionsIndependent, kind.optionsIndependent⟩

/-- Two tempos with an option of the beams between them. -/
def tempoTwice : List (String × String) :=
  [("tempo", "90"), ("beam-rests", "false"), ("tempo", "140")]

/-- The second tempo stays, and may as well be written before the option of the beams. A tempo that
is no number stops the list, with the tempo before it set. A stave of notes may ask for tablature,
too. -/
theorem options_are_independent_tempoTwice :
    let s := Session.start .standard
    (∃ settings, s.setOptions tempoTwice = .done (s.withSettings settings).addSpace ∧
      settings.get .tempo = .tempo 140 ∧ settings.get .scale = s.settings.get .scale) ∧
    s.setOptions tempoTwice =
      s.setOptions [("tempo", "90"), ("tempo", "140"), ("beam-rests", "false")] ∧
    (∃ settings cause,
      s.setOptions [("tempo", "90"), ("tempo", "fast"), ("beam-rests", "false")] =
        .stopped (s.withSettings settings) cause ∧ cause.kind = .config) ∧
    ∃ d, ofOptions .staff [⟨"tablature", "true", none, none⟩] = .ok d ∧ d.tablature = true := by
  intro s
  obtain ⟨hscore, hstave⟩ := options_are_independent s .staff
  have read90 : Setting.read "tempo" "90" = .ok (.tempo 90) := rfl
  have read140 : Setting.read "tempo" "140" = .ok (.tempo 140) := rfl
  have readRests : Setting.read "beam-rests" "false" = .ok (.beamRests false) := rfl
  have readFast : Setting.read "tempo" "fast" = .error (.badOptionValue "tempo" "fast") := rfl
  have hvalid : ∀ entry ∈ tempoTwice, Settings.table.Valid entry :=
    List.forall_mem_cons.2 ⟨⟨_, read90⟩, List.forall_mem_cons.2 ⟨⟨_, readRests⟩,
      List.forall_mem_singleton.2 ⟨_, read140⟩⟩⟩
  refine ⟨?_, ?_, ?_, ?_⟩
  · obtain ⟨settings, hwins, hsets⟩ := hscore.valid tempoTwice hvalid
    obtain ⟨c, hread, hget⟩ := hwins.set .tempo "140" rfl
    cases read140.symm.trans hread
    exact ⟨settings, hsets, Option.some.inj hget, Option.some.inj (hwins.kept .scale rfl)⟩
  · exact hscore.commute _ _ (.swap (by decide) [("tempo", "90")] []) hvalid
  · have hinvalid : ¬ Settings.table.Valid ("tempo", "fast") := by
      rintro ⟨c, hread⟩
      cases readFast.symm.trans hread
    obtain ⟨_, _, _, cause, settings, -, -, -, hkind, -, hstops⟩ :=
      hscore.invalid [("tempo", "90"), ("tempo", "fast"), ("beam-rests", "false")]
        ⟨_, by simp, hinvalid⟩
    exact ⟨settings, cause, hstops, hkind⟩
  · have hshow : ∀ entry ∈ pairs [⟨"tablature", "true", none, none⟩], table.Valid entry :=
      List.forall_mem_singleton.2 ⟨.tablature true, rfl⟩
    obtain ⟨d, hwins⟩ := hstave.result _ hshow
    obtain ⟨o, hread, hget⟩ := hwins.set .tablature "true" rfl
    cases hread
    have htablature : d.tablature = true := StaveOption.tablature.inj (Option.some.inj hget)
    exact ⟨d, (hstave.accepted _ d).2 ⟨hshow, hwins, .inr htablature⟩, htablature⟩

end Tablature
