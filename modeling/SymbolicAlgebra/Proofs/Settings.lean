import SymbolicAlgebra.Settings
import SymbolicAlgebra.Proofs.Document.Merging

/-!
# Which texts give settings

Each of the four keys is read by a step of its own, which leaves the settings as they are where the
key has no values and stops where it has anything but one value that fits. So the steps all go
through exactly if every key that is there fits, the settings then hold what the values say, and a
key that does not fit is reported if those in front of it do.

The steps see nothing of a document but the values under the four keys, which a template does not
touch, and of the values that sections give under a key the last ones count.
-/

namespace SymbolicAlgebra

open Document (Value)

/-- The values under a key, if there are any. -/
def Entries.values? (entries : Entries) (key : String) : Option (List Value) :=
  (Dictionary.get? entries key).join

/-- Values with commas between them. -/
def Document.listed (vs : List Value) : String :=
  String.ofList (Text.joinWith [',', ' '] (vs.map Value.chars))

theorem Entries.single?_eq (entries : Entries) (key : String) :
    entries.single? key =
      match entries.values? key with
      | none => .ok none
      | some [v] => .ok (some v)
      | some vs => .error ⟨key, Document.listed vs⟩ := by
  rw [Entries.single?, Entries.values?]
  rcases Dictionary.get? entries key with _ | _ | vs
  · rfl
  · rfl
  · match vs with
    | [] => rfl
    | [v] => rfl
    | _ :: _ :: _ => rfl

/-- With all capital letters of ASCII made small. -/
def lowercase (s : String) : String := String.ofList (s.toList.map Char.toLower)

theorem lowercase_eq_iff {s name : String} :
    lowercase s = name ↔ s.toList.map Char.toLower = name.toList := by
  rw [lowercase, ← String.toList_inj, String.toList_ofList]

theorem SortLevel.ofName?_eq_some_iff {s : String} {level : SortLevel} :
    SortLevel.ofName? s = some level ↔ lowercase s = level.name := by
  rw [lowercase_eq_iff]
  constructor
  · intro h
    have hfound := List.find?_some h
    exact (of_decide_eq_true hfound).symm
  · intro h
    cases level <;> rw [SortLevel.ofName?, h] <;> decide

namespace Settings

/-- The level names, with the two that ask for nothing. -/
def verbosityNames : List String := ["off", "none", "error", "warn", "info", "debug", "trace"]

theorem verbosityOf?_congr {s s' : String} (h : lowercase s = lowercase s') :
    verbosityOf? s = verbosityOf? s' := by
  have hchars := lowercase_eq_iff.mp h
  rw [lowercase, String.toList_ofList] at hchars
  rw [verbosityOf?, verbosityOf?, Log.Verbosity.ofName?, Log.Verbosity.ofName?, hchars]

theorem isSome_verbosityOf?_iff {s : String} :
    (verbosityOf? s).isSome = true ↔ lowercase s ∈ verbosityNames := by
  constructor
  · intro h
    by_cases hnone : lowercase s = "none"
    · rw [hnone]
      decide
    rw [verbosityOf?, if_neg (mt lowercase_eq_iff.mpr hnone), Log.Verbosity.ofName?] at h
    by_cases hoff : lowercase s = "off"
    · rw [hoff]
      decide
    rw [if_neg (mt lowercase_eq_iff.mpr hoff), Option.isSome_map] at h
    obtain ⟨level, hlevel⟩ := Option.isSome_iff_exists.mp h
    have hname : level.name.toList = s.toList.map Char.toLower := by
      simpa using List.find?_some hlevel
    rw [lowercase_eq_iff.mpr hname.symm]
    cases level <;> decide
  · intro h
    have hnames : ∀ name ∈ verbosityNames,
        lowercase name = name ∧ (verbosityOf? name).isSome = true := by decide
    obtain ⟨hsmall, hsome⟩ := hnames _ h
    rw [verbosityOf?_congr hsmall.symm, hsome]

/-- The values that may stand under a key. -/
def Fits (key : String) (v : Value) : Prop :=
  match key with
  | "max_passes" => ∃ n : ℤ, v = .integer n ∧ 1 ≤ n
  | "sort_level" => ∃ name, v = .text name ∧ lowercase name ∈ ["exact", "shape", "loose"]
  | "long_division" => ∃ b, v = .boolean b
  | "loglevel" => lowercase v.toText ∈ verbosityNames
  | _ => False

/-- The values under the keys of the settings. -/
abbrev Found := String → Option (List Value)

/-- The key is absent or has exactly one value, which fits. -/
def Allowed (found : Found) (key : String) : Prop :=
  ∀ vs, found key = some vs → ∃ v, vs = [v] ∧ Fits key v

/-- A field is what the single value under its key means, or its default. -/
def IsField {α : Type} (vs : Option (List Value)) (default : α) (means : Value → α → Prop) (a : α) :
    Prop :=
  (vs = none ∧ a = default) ∨ ∃ v, vs = some [v] ∧ means v a

def MeansMaxPasses (v : Value) (n : ℕ) : Prop := v = .integer n ∧ 1 ≤ n

def MeansSortLevel (v : Value) (level : SortLevel) : Prop :=
  ∃ name, v = .text name ∧ lowercase name = level.name

def MeansLongDivision (v : Value) (b : Bool) : Prop := v = .boolean b

/-- Any value is taken by its text, which is kept as it is. -/
def MeansLogLevel (v : Value) (level : Option String) : Prop :=
  lowercase v.toText ∈ verbosityNames ∧ level = some v.toText

structure AsWritten (found : Found) (s : Settings) : Prop where
  maxPasses : IsField (found "max_passes") 20 MeansMaxPasses s.maxPasses
  sortLevel : IsField (found "sort_level") .exact MeansSortLevel s.sortLevel
  longDivision : IsField (found "long_division") true MeansLongDivision s.longDivision
  logLevel : IsField (found "loglevel") none MeansLogLevel s.logLevel

/-- A change goes through for the values that mean something, and sets a field to that. -/
def Sets {α : Type} (change : Settings → Value → Option Settings) (update : Settings → α → Settings)
    (means : Value → α → Prop) : Prop :=
  ∀ s v s', change s v = some s' ↔ ∃ a, means v a ∧ s' = update s a

theorem sets_maxPasses : Sets setMaxPasses (fun s n => { s with maxPasses := n }) MeansMaxPasses := by
  intro s v s'
  rw [setMaxPasses]
  cases v with
  | integer n =>
    constructor
    · intro h
      by_cases hn : 0 < n
      · have hcast : (n.toNat : ℤ) = n := Int.toNat_of_nonneg (Int.le_of_lt hn)
        have hs : some { s with maxPasses := n.toNat } = some s' := by
          simpa [Value.integer?, hn] using h
        exact ⟨n.toNat, ⟨congrArg Value.integer hcast.symm, by omega⟩, (Option.some.inj hs).symm⟩
      · simp [Value.integer?, hn] at h
    · rintro ⟨m, ⟨hm, hone⟩, rfl⟩
      obtain rfl := Value.integer.inj hm
      have hpos : 0 < m := hone
      simp [Value.integer?, hpos]
  | _ => simp [Value.integer?, MeansMaxPasses]

theorem sets_sortLevel :
    Sets setSortLevel (fun s level => { s with sortLevel := level }) MeansSortLevel := by
  intro s v s'
  rw [setSortLevel, Option.map_eq_some_iff]
  cases v with
  | text name =>
    simp only [Value.text?, Option.bind_some, SortLevel.ofName?_eq_some_iff, MeansSortLevel,
      Value.text.injEq, exists_eq_left', eq_comm (a := s')]
  | _ => simp [Value.text?, MeansSortLevel]

theorem sets_longDivision :
    Sets setLongDivision (fun s b => { s with longDivision := b }) MeansLongDivision := by
  intro s v s'
  rw [setLongDivision, Option.map_eq_some_iff]
  cases v <;> simp [Value.boolean?, MeansLongDivision, eq_comm]

theorem sets_logLevel :
    Sets setLogLevel (fun s level => { s with logLevel := level }) MeansLogLevel := by
  intro s v s'
  rw [setLogLevel, Option.map_eq_some_iff]
  have hsome := isSome_verbosityOf?_iff (s := v.toText)
  rw [Option.isSome_iff_exists] at hsome
  simp [MeansLogLevel, ← hsome, eq_comm (a := s')]

section Steps

variable {entries : Entries} {key : String} {s s' : Settings}
  {change : Settings → Value → Option Settings}

theorem withKey_of_none (h : entries.values? key = none) : withKey entries key change s = .ok s := by
  rw [withKey, Entries.single?_eq, h]

theorem withKey_of_singleton {v : Value} (h : entries.values? key = some [v]) :
    withKey entries key change s = (change s v).elim (.error ⟨key, v.toText⟩) .ok := by
  rw [withKey, Entries.single?_eq, h]
  cases hv : change s v <;> simp [hv]

theorem withKey_of_not_singleton {vs : List Value} (h : entries.values? key = some vs)
    (hvs : ∀ v, vs ≠ [v]) :
    withKey entries key change s = .error ⟨key, Document.listed vs⟩ := by
  rw [withKey, Entries.single?_eq, h]
  match vs with
  | [] => rfl
  | [v] => exact absurd rfl (hvs v)
  | _ :: _ :: _ => rfl

/-- What a step that sets a field goes on with. -/
theorem withKey_eq_ok_iff {α : Type} {update : Settings → α → Settings} {means : Value → α → Prop}
    {default : α} (hsets : Sets change update means) (hdefault : s = update s default) :
    withKey entries key change s = .ok s' ↔
      ∃ a, IsField (entries.values? key) default means a ∧ s' = update s a := by
  rcases hvs : entries.values? key with _ | vs
  · simp [withKey_of_none hvs, IsField, ← hdefault, eq_comm]
  by_cases hsingle : ∃ v, vs = [v]
  · obtain ⟨v, rfl⟩ := hsingle
    have hok : withKey entries key change s = .ok s' ↔ change s v = some s' := by
      rw [withKey_of_singleton hvs]
      cases change s v <;> simp
    rw [hok, hsets]
    simp [IsField]
  · have hno : ∀ v, vs ≠ [v] := not_exists.mp hsingle
    rw [withKey_of_not_singleton hvs hno]
    simp [IsField, hno]

theorem bind_eq_ok_iff {ε α β : Type} {x : Except ε α} {f : α → Except ε β} {b : β} :
    x >>= f = .ok b ↔ ∃ a, x = .ok a ∧ f a = .ok b := by
  cases x <;> simp [bind, Except.bind]

/-- The settings that come out hold what the values mean, and nothing else is needed for that. -/
theorem ofEntries_eq_ok_iff : ofEntries entries = .ok s ↔ AsWritten entries.values? s := by
  simp only [ofEntries, bind_eq_ok_iff]
  constructor
  · rintro ⟨s₁, h₁, s₂, h₂, s₃, h₃, h₄⟩
    obtain ⟨n, hn, rfl⟩ := (withKey_eq_ok_iff sets_maxPasses rfl).mp h₁
    obtain ⟨level, hlevel, rfl⟩ := (withKey_eq_ok_iff sets_sortLevel rfl).mp h₂
    obtain ⟨b, hb, rfl⟩ := (withKey_eq_ok_iff sets_longDivision rfl).mp h₃
    obtain ⟨shown, hshown, rfl⟩ := (withKey_eq_ok_iff sets_logLevel rfl).mp h₄
    exact ⟨hn, hlevel, hb, hshown⟩
  · intro h
    exact ⟨_, (withKey_eq_ok_iff sets_maxPasses rfl).mpr ⟨_, h.maxPasses, rfl⟩,
      _, (withKey_eq_ok_iff sets_sortLevel rfl).mpr ⟨_, h.sortLevel, rfl⟩,
      _, (withKey_eq_ok_iff sets_longDivision rfl).mpr ⟨_, h.longDivision, rfl⟩,
      (withKey_eq_ok_iff sets_logLevel rfl).mpr ⟨_, h.logLevel, rfl⟩⟩

end Steps

theorem exists_meansMaxPasses_iff {v : Value} :
    (∃ n, MeansMaxPasses v n) ↔ Fits "max_passes" v := by
  constructor
  · rintro ⟨n, rfl, hn⟩
    exact ⟨n, rfl, by omega⟩
  · rintro ⟨n, rfl, hn⟩
    obtain ⟨m, rfl⟩ := Int.eq_ofNat_of_zero_le (Int.le_trans Int.one_nonneg hn)
    exact ⟨m, rfl, by omega⟩

theorem exists_meansSortLevel_iff {v : Value} :
    (∃ level, MeansSortLevel v level) ↔ Fits "sort_level" v := by
  constructor
  · rintro ⟨level, name, rfl, hname⟩
    refine ⟨name, rfl, ?_⟩
    rw [hname]
    cases level <;> decide
  · rintro ⟨name, rfl, hname⟩
    have hlevels : ∀ name ∈ ["exact", "shape", "loose"], ∃ level ∈ SortLevel.all,
        name = level.name := by decide
    obtain ⟨level, -, hlevel⟩ := hlevels _ hname
    exact ⟨level, name, rfl, hlevel⟩

theorem exists_meansLogLevel_iff {v : Value} :
    (∃ level, MeansLogLevel v level) ↔ Fits "loglevel" v :=
  ⟨fun ⟨_, hname, _⟩ => hname, fun hname => ⟨_, hname, rfl⟩⟩

theorem IsField.allowed {α : Type} {found : Found} {key : String} {default a : α}
    {means : Value → α → Prop} (h : IsField (found key) default means a)
    (hfits : ∀ v, (∃ a, means v a) → Fits key v) : Allowed found key := by
  intro vs hvs
  rcases h with ⟨hnone, -⟩ | ⟨v, hv, hmeans⟩
  · rw [hnone] at hvs
    cases hvs
  · rw [hv] at hvs
    exact ⟨v, (Option.some.inj hvs).symm, hfits v ⟨a, hmeans⟩⟩

theorem AsWritten.allowed {found : Found} {s : Settings} (h : AsWritten found s) :
    ∀ key ∈ keys, Allowed found key := by
  simp only [keys, List.forall_mem_cons]
  exact ⟨h.maxPasses.allowed fun _ => exists_meansMaxPasses_iff.mp,
    h.sortLevel.allowed fun _ => exists_meansSortLevel_iff.mp,
    h.longDivision.allowed fun _ hb => hb,
    h.logLevel.allowed fun _ => exists_meansLogLevel_iff.mp, nofun⟩

theorem AsWritten.one_le_maxPasses {found : Found} {s : Settings} (h : AsWritten found s) :
    1 ≤ s.maxPasses := by
  rcases h.maxPasses with ⟨-, hdefault⟩ | ⟨v, -, -, hn⟩
  · omega
  · exact hn

theorem AsWritten.exists_verbosity {found : Found} {s : Settings} (h : AsWritten found s) :
    ∃ v, s.verbosity = .ok v := by
  rw [verbosity]
  rcases h.logLevel with ⟨-, hdefault⟩ | ⟨v, -, hname, hlevel⟩
  · exact ⟨none, by rw [hdefault]⟩
  · obtain ⟨verbosity, hverbosity⟩ := Option.isSome_iff_exists.mp (isSome_verbosityOf?_iff.mpr hname)
    exact ⟨verbosity, by simp only [hlevel, hverbosity]⟩

section Order

variable {entries : Entries}

/-- A key with the change that it makes. -/
abbrev Step := String × (Settings → Value → Option Settings)

def Step.run (entries : Entries) (s : Settings) (step : Step) : Except InvalidValue Settings :=
  withKey entries step.1 step.2 s

def steps : List Step :=
  [("max_passes", setMaxPasses), ("sort_level", setSortLevel), ("long_division", setLongDivision),
    ("loglevel", setLogLevel)]

theorem map_fst_steps : steps.map Prod.fst = keys := rfl

theorem ofEntries_eq_foldlM : ofEntries entries = steps.foldlM (Step.run entries) {} := by
  simp only [ofEntries, steps, List.foldlM_cons, List.foldlM_nil, Step.run, bind_pure]

/-- The change goes through for the values that fit. -/
def Step.Faithful (step : Step) : Prop := ∀ s v, (step.2 s v).isSome = true ↔ Fits step.1 v

theorem Sets.isSome_iff {α : Type} {change : Settings → Value → Option Settings}
    {update : Settings → α → Settings} {means : Value → α → Prop} (h : Sets change update means)
    (s : Settings) (v : Value) : (change s v).isSome = true ↔ ∃ a, means v a := by
  rw [Option.isSome_iff_exists]
  constructor
  · rintro ⟨s', hs'⟩
    obtain ⟨a, ha, -⟩ := (h s v s').mp hs'
    exact ⟨a, ha⟩
  · rintro ⟨a, ha⟩
    exact ⟨update s a, (h s v _).mpr ⟨a, ha, rfl⟩⟩

theorem faithful_of_mem_steps : ∀ step ∈ steps, step.Faithful := by
  simp only [steps, List.forall_mem_cons]
  exact ⟨fun s v => (sets_maxPasses.isSome_iff s v).trans exists_meansMaxPasses_iff,
    fun s v => (sets_sortLevel.isSome_iff s v).trans exists_meansSortLevel_iff,
    sets_longDivision.isSome_iff,
    fun s v => (sets_logLevel.isSome_iff s v).trans exists_meansLogLevel_iff, nofun⟩

theorem Step.Faithful.run_ok {step : Step} (h : step.Faithful) {s : Settings}
    (hallowed : Allowed entries.values? step.1) : ∃ s', step.run entries s = .ok s' := by
  rcases hvs : entries.values? step.1 with _ | vs
  · exact ⟨s, withKey_of_none hvs⟩
  · obtain ⟨v, rfl, hfits⟩ := hallowed vs hvs
    obtain ⟨s', hs'⟩ := Option.isSome_iff_exists.mp ((h s v).mpr hfits)
    exact ⟨s', by rw [Step.run, withKey_of_singleton hvs, hs', Option.elim_some]⟩

theorem Step.Faithful.run_error {step : Step} (h : step.Faithful) {s : Settings}
    (hbad : ¬ Allowed entries.values? step.1) :
    ∃ vs, entries.values? step.1 = some vs ∧
      step.run entries s = .error ⟨step.1, Document.listed vs⟩ := by
  simp only [Allowed, not_forall] at hbad
  obtain ⟨vs, hvs, hno⟩ := hbad
  refine ⟨vs, hvs, ?_⟩
  by_cases hsingle : ∃ v, vs = [v]
  · obtain ⟨v, rfl⟩ := hsingle
    have hnone : step.2 s v = none := by
      rw [← Option.not_isSome_iff_eq_none, h s v]
      exact fun hfits => hno ⟨v, rfl, hfits⟩
    rw [Step.run, withKey_of_singleton hvs, hnone, Option.elim_none]
    rfl
  · exact withKey_of_not_singleton hvs (not_exists.mp hsingle)

theorem exists_foldlM_eq_ok {steps : List Step} (hsteps : ∀ step ∈ steps, step.Faithful)
    (hallowed : ∀ step ∈ steps, Allowed entries.values? step.1) (s : Settings) :
    ∃ s', steps.foldlM (Step.run entries) s = .ok s' := by
  induction steps generalizing s with
  | nil => exact ⟨s, rfl⟩
  | cons step steps ih =>
    rw [List.forall_mem_cons] at hsteps hallowed
    obtain ⟨s', hs'⟩ := hsteps.1.run_ok (s := s) hallowed.1
    rw [List.foldlM_cons, hs']
    exact ih hsteps.2 hallowed.2 s'

/-- The first step that fails is the one that is reported. -/
theorem exists_ofEntries_eq_error {before after : List String} {key : String}
    (hkeys : keys = before ++ key :: after)
    (hallowed : ∀ k ∈ before, Allowed entries.values? k) (hbad : ¬ Allowed entries.values? key) :
    ∃ vs, entries.values? key = some vs ∧ ofEntries entries = .error ⟨key, Document.listed vs⟩ := by
  rw [← map_fst_steps, List.map_eq_append_iff] at hkeys
  obtain ⟨first, rest, hsteps, rfl, hrest⟩ := hkeys
  obtain ⟨step, last, rfl, rfl, rfl⟩ := List.map_eq_cons_iff.mp hrest
  have hfaithful := faithful_of_mem_steps
  rw [hsteps, List.forall_mem_append, List.forall_mem_cons] at hfaithful
  rw [List.forall_mem_map] at hallowed
  obtain ⟨s, hs⟩ := exists_foldlM_eq_ok hfaithful.1 hallowed {}
  obtain ⟨vs, hvs, herror⟩ := hfaithful.2.1.run_error (s := s) hbad
  refine ⟨vs, hvs, ?_⟩
  rw [ofEntries_eq_foldlM, hsteps, List.foldlM_append, hs]
  simp [bind, Except.bind, herror]

end Order

section Documents

variable {d : Document}

theorem values?_expectKey (entries : Entries) (expected key : String) :
    (Document.expectKey entries expected).values? key = entries.values? key := by
  rw [Document.expectKey]
  split_ifs with hsome
  · rfl
  · rw [Entries.values?, Entries.values?, Dictionary.get?_insert]
    split_ifs with hkey
    · rw [hkey, Option.not_isSome_iff_eq_none] at hsome
      rw [hsome]
      rfl
    · rfl

theorem values?_foldl_expectKey (expected : List String) (entries : Entries) (key : String) :
    (expected.foldl Document.expectKey entries).values? key = entries.values? key := by
  induction expected generalizing entries with
  | nil => rfl
  | cons first expected ih => rw [List.foldl_cons, ih, values?_expectKey]

/-- The values of a document under the keys of the settings. -/
def found (d : Document) : Found := fun key => (d.at? sectionTitle key).join

/-- What is read for the settings, with all keys that are expected. -/
def sectionEntries (d : Document) : Entries :=
  keys.foldl Document.expectKey ((Dictionary.get? d sectionTitle).getD [])

theorem ofDocument_expect : ofDocument (d.expect template) = ofEntries (sectionEntries d) := by
  have hget : Dictionary.get? (d.expect template) sectionTitle = some (sectionEntries d) := by
    rw [template, Document.expect, List.foldl_cons, List.foldl_nil, Dictionary.get?_insert,
      if_pos rfl, sectionEntries]
  rw [ofDocument, hget]

theorem values?_sectionEntries : (sectionEntries d).values? = found d := by
  funext key
  rw [sectionEntries, values?_foldl_expectKey, found, Document.at?, Entries.values?]
  cases Dictionary.get? d sectionTitle <;> rfl

theorem ofEntries_congr {entries entries' : Entries}
    (h : ∀ key ∈ keys, entries.values? key = entries'.values? key) :
    ofEntries entries = ofEntries entries' := by
  have hsingle : ∀ key ∈ keys, entries.single? key = entries'.single? key := by
    intro key hkey
    rw [Entries.single?_eq, Entries.single?_eq, h key hkey]
  simp only [keys, List.forall_mem_cons] at hsingle
  obtain ⟨hmaxPasses, hsortLevel, hlongDivision, hlogLevel, -⟩ := hsingle
  simp only [ofEntries, withKey, hmaxPasses, hsortLevel, hlongDivision, hlogLevel]

/-- The lists of values that the sections give under a key of the settings, in their order. -/
def written (sections : List Document.Section) (key : String) : List (List Value) :=
  ((sections.flatMap Document.entriesOf).filter (·.1 == (sectionTitle, key))).map Prod.snd

theorem lookup_reverse_eq_getLast? {α β : Type} [BEq α] [LawfulBEq α]
    (entries : List (α × β)) (a : α) :
    entries.reverse.lookup a = ((entries.filter (·.1 == a)).map Prod.snd).getLast? := by
  induction entries using List.reverseRecOn with
  | nil => rfl
  | append_singleton entries e ih =>
    rw [List.reverse_concat, List.lookup_cons, List.filter_append, List.map_append]
    by_cases h : e.1 = a
    · simp [h]
    · rw [beq_eq_false_iff_ne.mpr (Ne.symm h), ih]
      simp [h]

theorem found_ofSections (sections : List Document.Section) (key : String) :
    found (Document.ofSections sections) key = (written sections key).getLast? := by
  rw [found, Document.ofSections_eq, Document.at?_foldl, lookup_reverse_eq_getLast?, written]
  cases List.getLast? _ <;> rfl

theorem ofText_eq {text : String} (h : Document.read text = .ok d) :
    ofText text = (ofEntries (sectionEntries d)).mapError .invalidValue := by
  rw [ofText, h, ← ofDocument_expect]

theorem ofText_eq_ok_iff {text : String} {s : Settings} (h : Document.read text = .ok d) :
    ofText text = .ok s ↔ AsWritten (found d) s := by
  rw [ofText_eq h, ← values?_sectionEntries, ← ofEntries_eq_ok_iff]
  cases ofEntries (sectionEntries d) <;> simp [Except.mapError]

theorem exists_ofText_eq_ok_iff {text : String} :
    (∃ s, ofText text = .ok s) ↔
      ∃ d, Document.read text = .ok d ∧ ∀ key ∈ keys, Allowed (found d) key := by
  constructor
  · rintro ⟨s, hs⟩
    cases hread : Document.read text with
    | error e => simp [ofText, hread] at hs
    | ok d => exact ⟨d, rfl, ((ofText_eq_ok_iff hread).mp hs).allowed⟩
  · rintro ⟨d, hread, hallowed⟩
    rw [← values?_sectionEntries, ← map_fst_steps, List.forall_mem_map] at hallowed
    obtain ⟨s, hs⟩ := exists_foldlM_eq_ok faithful_of_mem_steps hallowed {}
    rw [← ofEntries_eq_foldlM, ofEntries_eq_ok_iff, values?_sectionEntries] at hs
    exact ⟨s, (ofText_eq_ok_iff hread).mpr hs⟩

/-- A text gives settings exactly if it is a document in which every key that is there has one value
that fits, and these are what the values mean. Else the first key that does not fit is reported, and
only the values under the four keys matter for what comes out. -/
theorem ofText_outcome (text : String) :
    ((∃ s, ofText text = .ok s) ↔
      ∃ d, Document.read text = .ok d ∧ ∀ key ∈ keys, Allowed (found d) key) ∧
    (∀ d s, Document.read text = .ok d → ofText text = .ok s →
      AsWritten (found d) s ∧ 1 ≤ s.maxPasses ∧ ∃ v, s.verbosity = .ok v) ∧
    (∀ e, Document.read text = .error e → ofText text = .error (.document e)) ∧
    (∀ d before key after, Document.read text = .ok d → keys = before ++ key :: after →
      (∀ k ∈ before, Allowed (found d) k) → ¬ Allowed (found d) key →
        ∃ vs, found d key = some vs ∧
          ofText text = .error (.invalidValue ⟨key, Document.listed vs⟩)) ∧
    (∀ text' sections sections', Document.readSections text = .ok sections →
      Document.readSections text' = .ok sections' →
      (∀ key ∈ keys, (written sections key).getLast? = (written sections' key).getLast?) →
        ofText text = ofText text') := by
  refine ⟨exists_ofText_eq_ok_iff, ?_, ?_, ?_, ?_⟩
  · intro d s hread hs
    have hwritten := (ofText_eq_ok_iff hread).mp hs
    exact ⟨hwritten, hwritten.one_le_maxPasses, hwritten.exists_verbosity⟩
  · intro e hread
    rw [ofText, hread]
  · intro d before key after hread hkeys hallowed hbad
    rw [← values?_sectionEntries] at hallowed hbad
    obtain ⟨vs, hvs, herror⟩ := exists_ofEntries_eq_error hkeys hallowed hbad
    rw [values?_sectionEntries] at hvs
    refine ⟨vs, hvs, ?_⟩
    rw [ofText_eq hread, herror]
    rfl
  · intro text' sections sections' hsections hsections' hlast
    have hread : Document.read text = .ok (Document.ofSections sections) := by
      rw [Document.read, hsections]
      rfl
    have hread' : Document.read text' = .ok (Document.ofSections sections') := by
      rw [Document.read, hsections']
      rfl
    have hentries : ofEntries (sectionEntries (Document.ofSections sections)) =
        ofEntries (sectionEntries (Document.ofSections sections')) := by
      refine ofEntries_congr fun key hkey => ?_
      rw [values?_sectionEntries, values?_sectionEntries, found_ofSections, found_ofSections,
        hlast key hkey]
    rw [ofText_eq hread, ofText_eq hread', hentries]

/-- Two sections of settings with another one between them; the first level is replaced, and the
number of passes belongs to the other section. -/
def mergedText : String :=
  "simplify sort_level: none loglevel: Off\nother max_passes: 0\nsimplify unknown: 1 sort_level: LOOSE"

/-- Both levels are bad, and the number of passes is fine. -/
def badText : String := "simplify loglevel: loud sort_level: exact, shape max_passes: 7"

theorem ofText_outcome_mergedText_badText :
    (∃ s, ofText mergedText = .ok s ∧ s.maxPasses = 20 ∧ s.sortLevel = .loose ∧
      ∃ v, s.verbosity = .ok v) ∧
    ofText badText = .error (.invalidValue ⟨"sort_level", "exact, shape"⟩) := by
  constructor
  · have hread : Document.read mergedText =
        .ok [("simplify", [("sort_level", some [.text "LOOSE"]), ("loglevel", some [.text "Off"]),
            ("unknown", some [.integer 1])]),
          ("other", [("max_passes", some [.integer 0])])] := rfl
    have hok : ofText mergedText = .ok { sortLevel := .loose, logLevel := some "Off" } := rfl
    obtain ⟨-, -, hverbosity⟩ := (ofText_outcome mergedText).2.1 _ _ hread hok
    exact ⟨_, hok, rfl, rfl, hverbosity⟩
  · have hread : Document.read badText =
        .ok [("simplify", [("loglevel", some [.text "loud"]),
          ("sort_level", some [.text "exact", .text "shape"]),
          ("max_passes", some [.integer 7])])] := rfl
    have hfirst := (ofText_outcome badText).2.2.2.1 _ ["max_passes"] "sort_level"
      ["long_division", "loglevel"] hread rfl
    have hbefore := hfirst (by
      intro k hk
      obtain rfl := List.mem_singleton.mp hk
      rintro vs ⟨⟩
      exact ⟨.integer 7, rfl, 7, rfl, by decide⟩)
    obtain ⟨vs, ⟨⟩, herror⟩ := hbefore (by
      intro hallowed
      obtain ⟨v, hv, -⟩ := hallowed _ rfl
      simp at hv)
    exact herror

end Documents

end Settings

end SymbolicAlgebra
