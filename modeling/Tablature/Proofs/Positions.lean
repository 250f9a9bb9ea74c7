/-
# Tablature.Proofs.Positions — where a fault is reported.

Options, note elements and directives are records that may say where they were written. A fault has
a record that is to blame, and the directive around it (`Directive.Blames`); it should be reported
at the innermost of them that has a line. A directive that opens a stave or a voice does so, for its
options and for its note elements. A directive that sets options of the score does not: it reports a
wrong option at the directive, whatever the option says of its place. So the innermost place is
reported by exactly those lists of directives that do not stop at such an option, or whose option
has no line of its own (`pointsInnermost_iff`).
-/
import Tablature.Proofs.Measures
import Tablature.Proofs.Scripts

namespace Tablature

/-! ## Records and their places -/

/-- Where a record was written, as far as it says. -/
structure Place where
  line : Option Nat
  column : Option Nat
  deriving DecidableEq, Repr

/-- A record has a location if it has a line; a missing column is zero. -/
def Place.location? (p : Place) : Option Location := p.line.map fun line => ⟨line, p.column.getD 0⟩

/-- The location of the innermost record that has one; the records are listed from the innermost
outwards. -/
def innermost? (records : List Place) : Option Location := records.findSome? Place.location?

/-- The place of an option. -/
def OptionEntry.place (e : OptionEntry) : Place := ⟨e.line, e.column⟩

/-- The place of a note element. -/
def NoteElement.place (e : NoteElement) : Place := ⟨e.line, e.column⟩

/-- The place of a directive. -/
def Directive.place (d : Directive) : Place := ⟨d.line, d.column⟩

theorem innermost?_cons (p : Place) (records : List Place) :
    innermost? (p :: records) = p.location?.or (innermost? records) := by
  rw [innermost?, List.findSome?_cons]
  cases p.location? <;> rfl

namespace Located

variable {α : Type}

/-- A record gives its place only to what has none. -/
theorem within_eq (x : Located α) (line column : Option Nat) :
    x.within line column = ⟨x.value, x.location.or (Place.location? ⟨line, column⟩)⟩ := by
  obtain ⟨value, _ | here⟩ := x <;> cases line <;> rfl

theorem nowhere_within (value : α) (line column : Option Nat) :
    (nowhere value).within line column = ⟨value, innermost? [⟨line, column⟩]⟩ := by
  rw [within_eq, innermost?_cons]
  exact congrArg (mk value) (Option.or_none).symm

/-- A fault on its way out of two records keeps the place of the inner one. -/
theorem within_within (value : α) (line column line' column' : Option Nat) :
    ((nowhere value).within line column).within line' column' =
      ⟨value, innermost? [⟨line, column⟩, ⟨line', column'⟩]⟩ := by
  rw [within_eq, nowhere_within, innermost?_cons, innermost?_cons]
  cases line <;> cases line' <;> rfl

end Located

/-! ## Entries to blame -/

/-- The first entry of a list that cannot be read, and why it cannot. -/
inductive FirstWrong {α : Type} (read : String → String → Except Cause α) :
    List OptionEntry → OptionEntry → Cause → Prop
  | here {entry : OptionEntry} {cause : Cause} (h : read entry.key entry.value = .error cause)
      (later : List OptionEntry) : FirstWrong read (entry :: later) entry cause
  | later {first entry : OptionEntry} {entries : List OptionEntry} {cause : Cause} {a : α}
      (h : read first.key first.value = .ok a) (rest : FirstWrong read entries entry cause) :
      FirstWrong read (first :: entries) entry cause

theorem Session.fault_setOptions_iff {s : Session} {entries : List OptionEntry} {cause : Cause} :
    (s.setOptions (entries.map fun o => (o.key, o.value))).fault = some cause ↔
      ∃ entry, FirstWrong Setting.read entries entry cause := by
  rw [setOptions, Outcome.fault_andThen_iff]
  simp only [Outcome.done, reduceCtorEq, and_false, or_false]
  induction entries generalizing s with
  | nil =>
      constructor
      · intro h
        cases h
      · rintro ⟨entry, h⟩
        cases h
  | cons first entries ih =>
      rw [List.map_cons, Outcome.forEach_cons, setOption, Settings.set]
      cases hread : Setting.read first.key first.value with
      | error wrong =>
          constructor
          · intro h
            cases h
            exact ⟨first, .here hread entries⟩
          · rintro ⟨entry, h⟩
            cases h with
            | here h =>
                cases hread.symm.trans h
                rfl
            | later h => cases hread.symm.trans h
      | ok setting =>
          refine Iff.trans ih (exists_congr fun entry => ⟨.later hread, fun h => ?_⟩)
          cases h with
          | here h => cases hread.symm.trans h
          | later _ rest => exact rest

namespace StaveDeclaration

theorem readOptions_eq_error_iff {entries : List OptionEntry} {fault : Fault} :
    readOptions entries = .error fault ↔
      ∃ entry cause, FirstWrong StaveOption.read entries entry cause ∧
        fault = (Located.nowhere cause).within entry.line entry.column := by
  induction entries with
  | nil =>
      constructor
      · intro h
        cases h
      · rintro ⟨entry, cause, h, -⟩
        cases h
  | cons first entries ih =>
      rw [readOptions]
      cases hread : StaveOption.read first.key first.value with
      | error wrong =>
          constructor
          · intro h
            cases h
            exact ⟨first, wrong, .here hread entries, rfl⟩
          · rintro ⟨entry, cause, h, rfl⟩
            cases h with
            | here h =>
                cases hread.symm.trans h
                rfl
            | later h => cases hread.symm.trans h
      | ok option =>
          have hrest : (readOptions entries).map ((first, option) :: ·) = .error fault ↔
              readOptions entries = .error fault := by
            cases readOptions entries <;> simp [Except.map]
          refine (hrest.trans ih).trans (exists₂_congr fun entry cause =>
            and_congr_left fun _ => ⟨.later hread, fun h => ?_⟩)
          cases h with
          | here h => cases hread.symm.trans h
          | later _ rest => exact rest

/-- The last entry on visibility of options that hide both views. -/
def HidesBoth (kind : StaveKind) (entries : List OptionEntry) (entry : OptionEntry) : Prop :=
  ∃ before option after, readOptions entries = .ok (before ++ (entry, option) :: after) ∧
    (((before ++ (entry, option) :: after).map (·.2)).foldl assign (defaults kind)).isVisible =
      false ∧
    option.isVisibility ∧ ∀ later ∈ after, later.2.isVisibility = false

/-- Without an option on visibility the views are those of the kind, of which one is visible. -/
theorem isVisible_foldl {options : List StaveOption} (h : ∀ o ∈ options, o.isVisibility = false)
    (kind : StaveKind) : (options.foldl assign (defaults kind)).isVisible := by
  refine List.foldlRecOn (motive := fun d : StaveDeclaration => d.isVisible = true) options _
    (by cases kind <;> rfl) fun d hd option hmem => ?_
  have hoption := h option hmem
  cases option with
  | staff visible => cases hoption
  | tablature visible => cases hoption
  | _ => exact hd

theorem exists_lastVisibility {options : List (OptionEntry × StaveOption)} {kind : StaveKind}
    (h : ((options.map (·.2)).foldl assign (defaults kind)).isVisible = false) :
    ∃ before entry option after, options = before ++ (entry, option) :: after ∧
      option.isVisibility ∧ ∀ later ∈ after, later.2.isVisibility = false := by
  cases hfind : options.reverse.find? (·.2.isVisibility) with
  | none =>
      have hnone : ∀ o ∈ options.map (·.2), o.isVisibility = false := by
        intro o ho
        obtain ⟨pair, hpair, rfl⟩ := List.mem_map.1 ho
        simpa using List.find?_eq_none.1 hfind pair (List.mem_reverse.2 hpair)
      exact nomatch h.symm.trans (isVisible_foldl hnone kind)
  | some last =>
      obtain ⟨entry, option⟩ := last
      obtain ⟨hvisibility, after, before, hreverse, hafter⟩ :=
        List.find?_eq_some_iff_append.1 hfind
      refine ⟨before.reverse, entry, option, after.reverse, ?_, hvisibility, ?_⟩
      · simpa using congrArg List.reverse hreverse
      · intro later hlater
        simpa using hafter later (List.mem_reverse.1 hlater)

theorem invisible_eq {before after : List (OptionEntry × StaveOption)} {entry : OptionEntry}
    {option : StaveOption} (hoption : option.isVisibility)
    (hafter : ∀ later ∈ after, later.2.isVisibility = false) :
    invisible (before ++ (entry, option) :: after) =
      (Located.nowhere .nothingVisible).within entry.line entry.column := by
  have hfind : (before ++ (entry, option) :: after).reverse.find? (·.2.isVisibility) =
      some (entry, option) := by
    refine List.find?_eq_some_iff_append.2 ⟨hoption, after.reverse, before.reverse, by simp, ?_⟩
    intro later hlater
    simpa using hafter later (List.mem_reverse.1 hlater)
  rw [invisible, hfind]

/-- A declaration is refused for its first option that cannot be read, or because it hides both
views. -/
theorem ofOptions_eq_error_iff {kind : StaveKind} {entries : List OptionEntry} {fault : Fault} :
    ofOptions kind entries = .error fault ↔
      ∃ entry cause,
        (FirstWrong StaveOption.read entries entry cause ∨
          (HidesBoth kind entries entry ∧ cause = .nothingVisible)) ∧
        fault = (Located.nowhere cause).within entry.line entry.column := by
  rw [ofOptions]
  cases hread : readOptions entries with
  | error wrong =>
      have hno (entry : OptionEntry) : ¬ HidesBoth kind entries entry := by
        rintro ⟨before, option, after, h, -⟩
        exact nomatch hread.symm.trans h
      simp only [hno, false_and, or_false, ← readOptions_eq_error_iff, hread, Except.error.injEq]
  | ok options =>
      have hno (entry : OptionEntry) (cause : Cause) :
          ¬ FirstWrong StaveOption.read entries entry cause := fun h =>
        nomatch hread.symm.trans (readOptions_eq_error_iff.2 ⟨entry, cause, h, rfl⟩)
      simp only [hno, false_or]
      cases hvisible : ((options.map (·.2)).foldl assign (defaults kind)).isVisible with
      | true =>
          simp only [if_true, reduceCtorEq, false_iff]
          rintro ⟨entry, cause, ⟨⟨before, option, after, h, hhidden, -⟩, -⟩, -⟩
          cases hread.symm.trans h
          exact nomatch hvisible.symm.trans hhidden
      | false =>
          simp only [Bool.false_eq_true, if_false, Except.error.injEq]
          constructor
          · rintro rfl
            obtain ⟨before, entry, option, after, rfl, hoption, hafter⟩ :=
              exists_lastVisibility hvisible
            exact ⟨entry, _, ⟨⟨before, option, after, hread, hvisible, hoption, hafter⟩, rfl⟩,
              invisible_eq hoption hafter⟩
          · rintro ⟨entry, cause, ⟨⟨before, option, after, h, -, hoption, hafter⟩, rfl⟩, rfl⟩
            cases hread.symm.trans h
            exact invisible_eq hoption hafter

end StaveDeclaration

/-! ## What a directive opens -/

namespace Session

variable {s : Session}

/-- A declaration that is accepted opens its stave or voice. -/
theorem fault_opened {d : Directive} {kind : StaveKind} {declaration : StaveDeclaration}
    (h : StaveDeclaration.ofOptions kind d.options = .ok declaration) :
    (s.opened d declaration).fault = none := by
  have haccepted : declaration.Accepted := ⟨kind, d.options, h⟩
  have hstave : (s.addStave declaration).fault = none := by
    rw [fault_addStave]
    exact SpellingMemory.fault_setKey s.memory haccepted.key_mem
  unfold opened addVoice
  split
  · split
    · exact hstave
    · rfl
  · exact hstave

end Session

/-! ## The records to blame -/

/-- **Who is to blame** for the fault of a directive: the records that it was found in, from the
innermost outwards, and its cause. -/
inductive Directive.Blames (s : Session) (d : Directive) : List Place → Cause → Prop
  /-- The directive itself has an unknown keyword. -/
  | keyword (hkind : d.kind? = none) (hkeyword : d.keyword ≠ "options") :
      Blames s d [d.place] (.unknownKeyword d.keyword)
  /-- An option of the score is wrong. -/
  | setting {entry : OptionEntry} {cause : Cause} (hkeyword : d.keyword = "options")
      (hwrong : FirstWrong Setting.read d.settings entry cause) :
      Blames s d [entry.place, d.place] cause
  /-- An option of a stave or a voice is wrong. -/
  | option {kind : StaveKind} {entry : OptionEntry} {cause : Cause} (hkind : d.kind? = some kind)
      (hwrong : FirstWrong StaveOption.read d.options entry cause) :
      Blames s d [entry.place, d.place] cause
  /-- The options hide both views, and this is the last of them that hides one. -/
  | hidden {kind : StaveKind} {entry : OptionEntry} (hkind : d.kind? = some kind)
      (hhides : StaveDeclaration.HidesBoth kind d.options entry) :
      Blames s d [entry.place, d.place] .nothingVisible
  /-- The first note element that cannot be played. -/
  | element {kind : StaveKind} {declaration : StaveDeclaration} {before after : List NoteElement}
      {e : NoteElement} {cause : Cause} (hkind : d.kind? = some kind)
      (hoptions : StaveDeclaration.ofOptions kind d.options = .ok declaration)
      (hnotes : d.notes = before ++ e :: after)
      (hbefore : ((s.opened d declaration).state.playAll before).fault = none)
      (hfault : (((s.opened d declaration).state.playAll before).state.play e).fault =
        some cause) :
      Blames s d [e.place, d.place] cause
  /-- The text, which has no place of its own. -/
  | text {kind : StaveKind} {declaration : StaveDeclaration} {cause : Cause}
      (hkind : d.kind? = some kind)
      (hoptions : StaveDeclaration.ofOptions kind d.options = .ok declaration)
      (hnotes : ((s.opened d declaration).state.playAll d.notes).fault = none)
      (htext : d.text.isEmpty = false)
      (hfault : (((s.opened d declaration).state.playAll d.notes).state.addTextLine d.text).fault =
        some cause) :
      Blames s d [d.place] cause

/-- A directive that sets options of the score can only blame one of them. -/
theorem Directive.Blames.of_options {s : Session} {d : Directive} {records : List Place}
    {cause : Cause} (h : d.Blames s records cause) (hkeyword : d.keyword = "options") :
    ∃ entry, FirstWrong Setting.read d.settings entry cause ∧
      records = [entry.place, d.place] := by
  have hkind := kind?_of_options hkeyword
  cases h with
  | keyword _ hne => exact absurd hkeyword hne
  | setting _ hwrong => exact ⟨_, hwrong, rfl⟩
  | option hsome => exact nomatch hkind.symm.trans hsome
  | hidden hsome => exact nomatch hkind.symm.trans hsome
  | element hsome => exact nomatch hkind.symm.trans hsome
  | text hsome => exact nomatch hkind.symm.trans hsome

/-- The records of a directive that its faults are reported at. -/
def Directive.reported (d : Directive) (records : List Place) : List Place :=
  if d.keyword = "options" then [d.place] else records

namespace Session

variable {s : Session}

/-! ## Faults of a directive -/

theorem playAll_element (elements : List NoteElement) (s : Session) :
    (Outcome.forEach element elements s).state = (s.playAll elements).state ∧
      ((Outcome.forEach element elements s).fault = none ↔ (s.playAll elements).fault = none) := by
  refine Outcome.forEach_described (fun e t => ?_) elements s
  rw [element_eq]
  exact ⟨rfl, by simp [Outcome.mapFault]⟩

theorem fault_element_iff {e : NoteElement} {fault : Fault} :
    (s.element e).fault = some fault ↔ ∃ cause, (s.play e).fault = some cause ∧
      fault = (Located.nowhere cause).within e.line e.column := by
  rw [element_eq, Outcome.mapFault, Option.map_eq_some_iff]
  simp only [eq_comm]

theorem fault_located_iff {o : Outcome Cause Session} {fault : Fault} :
    o.located.fault = some fault ↔ ∃ cause, o.fault = some cause ∧ fault = .nowhere cause := by
  rw [Outcome.located, Outcome.mapFault, Option.map_eq_some_iff]
  simp only [eq_comm]

/-- The notes and the text of a directive fail at a note element, or else in the text. -/
theorem fault_body_iff {d : Directive} {fault : Fault} :
    (s.body d).fault = some fault ↔
      (∃ before e after cause, d.notes = before ++ e :: after ∧
        (s.playAll before).fault = none ∧ ((s.playAll before).state.play e).fault = some cause ∧
        fault = (Located.nowhere cause).within e.line e.column) ∨
      (∃ cause, (s.playAll d.notes).fault = none ∧ d.text.isEmpty = false ∧
        ((s.playAll d.notes).state.addTextLine d.text).fault = some cause ∧
        fault = .nowhere cause) := by
  rw [body, Outcome.fault_andThen_iff, Outcome.fault_forEach_iff]
  refine or_congr ?_ ?_
  · simp only [playAll_element, fault_element_iff]
    constructor
    · rintro ⟨before, e, after, hnotes, hbefore, cause, hcause, hfault⟩
      exact ⟨before, e, after, cause, hnotes, hbefore, hcause, hfault⟩
    · rintro ⟨before, e, after, cause, hnotes, hbefore, hcause, hfault⟩
      exact ⟨before, e, after, hnotes, hbefore, cause, hcause, hfault⟩
  · rw [(playAll_element d.notes s).1, (playAll_element d.notes s).2]
    cases d.text.isEmpty with
    | true => simp [Outcome.done]
    | false => simp [fault_located_iff]

theorem fault_directive_eq {d : Directive} {inner : Fault} (h : (s.perform d).fault = some inner) :
    (s.directive d).fault = some (inner.within d.line d.column) := by
  show (s.perform d).fault.map _ = _
  rw [h]
  rfl

theorem reported_of_kind {d : Directive} {kind : StaveKind} (h : d.kind? = some kind)
    (records : List Place) : d.reported records = records := by
  refine if_neg fun hkeyword => ?_
  exact nomatch (Directive.kind?_of_options hkeyword).symm.trans h

/-- Without a fault in its options a directive goes on to its notes and its text. -/
theorem fault_perform_of_ok {d : Directive} {kind : StaveKind} {declaration : StaveDeclaration}
    (hkind : d.kind? = some kind)
    (hoptions : StaveDeclaration.ofOptions kind d.options = .ok declaration) :
    (s.perform d).fault = ((s.opened d declaration).state.body d).fault := by
  have hopened : (s.opened d declaration).located.fault = none := by
    rw [Outcome.located, Outcome.mapFault, fault_opened hoptions]
    rfl
  rw [perform_of_kind hkind, hoptions, Outcome.needing, Outcome.andThen_of_none hopened]
  rfl

/-- Who is to blame is reported. -/
theorem fault_directive_of_blames {d : Directive} {records : List Place} {cause : Cause}
    (h : d.Blames s records cause) :
    (s.directive d).fault = some ⟨cause, innermost? (d.reported records)⟩ := by
  cases h with
  | keyword hkind hkeyword =>
      have hperform : (s.perform d).fault = some (.nowhere (.unknownKeyword d.keyword)) := by
        rw [perform_of_none hkind hkeyword]
        rfl
      rw [fault_directive_eq hperform, Directive.reported, if_neg hkeyword]
      exact congrArg some (Located.nowhere_within _ _ _)
  | setting hkeyword hwrong =>
      have hperform : (s.perform d).fault = some (.nowhere cause) := by
        simp only [perform, hkeyword]
        exact fault_located_iff.2 ⟨cause, fault_setOptions_iff.2 ⟨_, hwrong⟩, rfl⟩
      rw [fault_directive_eq hperform, Directive.reported, if_pos hkeyword]
      exact congrArg some (Located.nowhere_within _ _ _)
  | @option kind entry cause hkind hwrong =>
      have hoptions : StaveDeclaration.ofOptions kind d.options = .error _ :=
        StaveDeclaration.ofOptions_eq_error_iff.2 ⟨entry, cause, .inl hwrong, rfl⟩
      rw [fault_directive_eq (by rw [perform_of_kind hkind, hoptions]; rfl), reported_of_kind hkind]
      exact congrArg some (Located.within_within _ _ _ _ _)
  | hidden hkind hhides =>
      have hoptions := StaveDeclaration.ofOptions_eq_error_iff.2 ⟨_, _, .inr ⟨hhides, rfl⟩, rfl⟩
      rw [fault_directive_eq (by rw [perform_of_kind hkind, hoptions]; rfl), reported_of_kind hkind]
      exact congrArg some (Located.within_within _ _ _ _ _)
  | element hkind hoptions hnotes hbefore hfault =>
      have hbody := fault_body_iff.2 (.inl ⟨_, _, _, cause, hnotes, hbefore, hfault, rfl⟩)
      rw [fault_directive_eq ((fault_perform_of_ok hkind hoptions).trans hbody),
        reported_of_kind hkind]
      exact congrArg some (Located.within_within _ _ _ _ _)
  | text hkind hoptions hnotes htext hfault =>
      have hbody := fault_body_iff.2 (.inr ⟨cause, hnotes, htext, hfault, rfl⟩)
      rw [fault_directive_eq ((fault_perform_of_ok hkind hoptions).trans hbody),
        reported_of_kind hkind]
      exact congrArg some (Located.nowhere_within _ _ _)

/-- A directive that fails has someone to blame. -/
theorem exists_blames {d : Directive} {fault : Fault} (h : (s.directive d).fault = some fault) :
    ∃ records, d.Blames s records fault.value := by
  -- The directive gives the fault a place, it does not change its cause.
  obtain ⟨inner, hinner, rfl⟩ := Option.map_eq_some_iff.1 h
  rw [Located.value_within]
  by_cases hkeyword : d.keyword = "options"
  · simp only [perform, hkeyword] at hinner
    obtain ⟨cause, hcause, rfl⟩ := fault_located_iff.1 hinner
    obtain ⟨entry, hwrong⟩ := fault_setOptions_iff.1 hcause
    exact ⟨_, .setting hkeyword hwrong⟩
  cases hkind : d.kind? with
  | none =>
      rw [perform_of_none hkind hkeyword] at hinner
      cases hinner
      exact ⟨_, .keyword hkind hkeyword⟩
  | some kind =>
      cases hoptions : StaveDeclaration.ofOptions kind d.options with
      | error fault =>
          rw [perform_of_kind hkind, hoptions] at hinner
          cases hinner
          obtain ⟨entry, cause, hwrong | ⟨hhides, rfl⟩, rfl⟩ :=
            StaveDeclaration.ofOptions_eq_error_iff.1 hoptions
          · rw [Located.value_within]
            exact ⟨_, .option hkind hwrong⟩
          · rw [Located.value_within]
            exact ⟨_, .hidden hkind hhides⟩
      | ok declaration =>
          rw [fault_perform_of_ok hkind hoptions] at hinner
          rcases fault_body_iff.1 hinner with
            ⟨before, e, after, cause, hnotes, hbefore, hcause, rfl⟩ |
            ⟨cause, hnotes, htext, hcause, rfl⟩
          · rw [Located.value_within]
            exact ⟨_, .element hkind hoptions hnotes hbefore hcause⟩
          · exact ⟨_, .text hkind hoptions hnotes htext hcause⟩

end Session

/-! ## Lists of directives -/

theorem compileDirectives_eq_error_iff {setup : PageSetup} {ds : List Directive} {fault : Fault} :
    compileDirectives setup ds = .error fault ↔
      ((Session.start setup).compile ds).fault = some fault := by
  simp only [compileDirectives]
  cases ((Session.start setup).compile ds).fault <;> simp

/-- A list fails at its first directive that does, and its fault is reported there. -/
theorem exists_blames_of_error {setup : PageSetup} {ds : List Directive} {fault : Fault} :
    compileDirectives setup ds = .error fault ↔
      ∃ before d after s records, ds = before ++ d :: after ∧
        compileDirectives setup before = .ok s ∧ d.Blames s records fault.value ∧
        fault.location = innermost? (d.reported records) := by
  rw [compileDirectives_eq_error_iff, Session.compile, Outcome.fault_forEach_iff]
  constructor
  · rintro ⟨before, d, after, hds, hbefore, hfault⟩
    obtain ⟨records, hblames⟩ := Session.exists_blames hfault
    have hreported := Session.fault_directive_of_blames hblames
    refine ⟨before, d, after, _, records, hds, compileDirectives_of_fault hbefore, hblames, ?_⟩
    rw [hfault] at hreported
    exact congrArg Located.location (Option.some.inj hreported)
  · rintro ⟨before, d, after, s, records, hds, hbefore, hblames, hlocation⟩
    obtain ⟨hfault, rfl⟩ := compileDirectives_eq_ok hbefore
    refine ⟨before, d, after, hds, hfault, ?_⟩
    have hreported := Session.fault_directive_of_blames hblames
    rw [← hlocation] at hreported
    exact hreported

/-- **The fault of a list points at the innermost record**: whichever records are to blame for it,
its location is that of the innermost one that has a line. -/
def PointsInnermost (setup : PageSetup) (ds : List Directive) : Prop :=
  ∀ before d after s records fault, ds = before ++ d :: after →
    compileDirectives setup before = .ok s → compileDirectives setup ds = .error fault →
    d.Blames s records fault.value → fault.location = innermost? records

/-- **Where faults are reported.** A list of directives fails if and only if one of its directives,
after those before it went through, has someone to blame; the fault is then reported at the
innermost of the records to blame that has a line, but for an option of the score, which is reported
at its directive. So the fault points at the innermost record if and only if the list does not stop
at an option of the score that has a line and lies elsewhere than its directive says. -/
theorem pointsInnermost_iff (setup : PageSetup) (ds : List Directive) :
    (∀ fault, compileDirectives setup ds = .error fault ↔
      ∃ before d after s records, ds = before ++ d :: after ∧
        compileDirectives setup before = .ok s ∧ d.Blames s records fault.value ∧
        fault.location = innermost? (if d.keyword = "options" then [d.place] else records)) ∧
    (PointsInnermost setup ds ↔
      ∀ before d after s entry cause, ds = before ++ d :: after →
        compileDirectives setup before = .ok s → d.keyword = "options" →
        FirstWrong Setting.read d.settings entry cause →
        entry.place.location? = none ∨ entry.place.location? = d.place.location?) := by
  refine ⟨fun fault => exists_blames_of_error, ?_⟩
  constructor
  · intro hpoints before d after s entry cause hds hbefore hkeyword hwrong
    have hblames : d.Blames s [entry.place, d.place] cause := .setting hkeyword hwrong
    have herror : compileDirectives setup ds = .error ⟨cause, innermost? [d.place]⟩ :=
      exists_blames_of_error.2 ⟨before, d, after, s, _, hds, hbefore, hblames,
        by rw [Directive.reported, if_pos hkeyword]⟩
    have hsame := hpoints before d after s _ _ hds hbefore herror hblames
    rw [innermost?_cons, innermost?_cons] at hsame
    cases hentry : entry.place.location? with
    | none => exact .inl rfl
    | some here =>
        rw [hentry, innermost?_cons] at hsame
        exact .inr (hsame.symm.trans Option.or_none)
  · intro hsettings before d after s records fault hds hbefore herror hblames
    obtain ⟨hfault, rfl⟩ := compileDirectives_eq_ok hbefore
    -- The list stops at this directive, so what it reports is known.
    have hstops : compileDirectives setup ds =
        .error ⟨fault.value, innermost? (d.reported records)⟩ :=
      exists_blames_of_error.2 ⟨before, d, after, _, records, hds, hbefore, hblames, rfl⟩
    have hlocation : fault.location = innermost? (d.reported records) :=
      congrArg Located.location (Except.error.inj (herror.symm.trans hstops))
    rw [hlocation, Directive.reported]
    split
    · rename_i hkeyword
      obtain ⟨entry, hwrong, rfl⟩ := hblames.of_options hkeyword
      rw [innermost?_cons entry.place]
      rcases hsettings before d after _ entry _ hds hbefore hkeyword hwrong with hnone | hsame
      · rw [hnone, Option.none_or]
      · rw [hsame, innermost?_cons]
        cases d.place.location? <;> rfl
    · rfl

/-- An option of the score with a wrong value, on the line after its directive. -/
def wrongTempo : Directive :=
  { keyword := "options"
    options := []
    settings := [⟨"tempo", "fast", some 2, some 5⟩]
    notes := []
    text := []
    line := some 1
    column := some 1 }

/-- Its fault is reported at the directive, not at the option. -/
theorem not_pointsInnermost_wrongTempo : ¬ PointsInnermost .standard [wrongTempo] := by
  intro hpoints
  let entry : OptionEntry := ⟨"tempo", "fast", some 2, some 5⟩
  have hnumber : Setting.readNat "fast" = none := by decide +kernel
  have hread : Setting.read entry.key entry.value = .error (.badOptionValue "tempo" "fast") := by
    show Setting.checked "tempo" "fast" Setting.tempo (Setting.readNat "fast") = _
    rw [hnumber]
    rfl
  have hblames : wrongTempo.Blames (.start .standard) [entry.place, wrongTempo.place]
      (.badOptionValue "tempo" "fast") := .setting rfl (.here hread [])
  have herror : compileDirectives .standard [wrongTempo] =
      .error ⟨.badOptionValue "tempo" "fast", some ⟨1, 1⟩⟩ :=
    exists_blames_of_error.2 ⟨[], wrongTempo, [], _, _, rfl, rfl, hblames, rfl⟩
  have hlocation := hpoints [] wrongTempo [] _ _ _ rfl rfl herror hblames
  exact absurd hlocation (by decide)

end Tablature
