import Planwright.Config.Setting
import Planwright.Proofs.Text.Cut

/-! Looking up settings. A path of names leads to a value, or a name of it is absent from the map reached so
    far, or it is stuck at a value that is no map. The getters tell the second case from all others, however
    deep the name is. -/

namespace Planwright.Setting

variable {fields sub : Fields} {name : String} {names path : List String} {v : Setting}

/-- From map to map along names. -/
inductive Leads : Fields → List String → Fields → Prop
  | here {fields : Fields} : Leads fields [] fields
  | into {fields sub last : Fields} {name : String} {names : List String} : fields.lookup name = some (.map sub) → Leads sub names last →
      Leads fields (name :: names) last

/-- The path leads through maps up to its last name, which has this value. -/
def Names (fields : Fields) (path : List String) (v : Setting) : Prop :=
  ∃ names name sub, path = names ++ [name] ∧ Leads fields names sub ∧ sub.lookup name = some v

/-- The path leads through maps up to a name that the map reached there does not have. -/
def Lacks (fields : Fields) (path : List String) : Prop :=
  ∃ names name rest sub, path = names ++ name :: rest ∧ Leads fields names sub ∧ sub.lookup name = none

theorem names_cons : Names fields (name :: path) v ↔
    path = [] ∧ fields.lookup name = some v ∨ ∃ sub, fields.lookup name = some (.map sub) ∧ Names sub path v := by
  constructor
  · rintro ⟨names, last, sub, heq, hleads, hv⟩
    cases hleads with
    | here =>
      cases heq
      exact .inl ⟨rfl, hv⟩
    | into hsub hleads =>
      cases heq
      exact .inr ⟨_, hsub, _, last, sub, rfl, hleads, hv⟩
  · rintro (⟨rfl, hv⟩ | ⟨sub, hsub, names, last, sub', rfl, hleads, hv⟩)
    · exact ⟨[], name, fields, rfl, .here, hv⟩
    · exact ⟨name :: names, last, sub', rfl, .into hsub hleads, hv⟩

theorem lacks_cons : Lacks fields (name :: path) ↔
    fields.lookup name = none ∨ ∃ sub, fields.lookup name = some (.map sub) ∧ Lacks sub path := by
  constructor
  · rintro ⟨names, last, rest, sub, heq, hleads, hnone⟩
    cases hleads with
    | here =>
      cases heq
      exact .inl hnone
    | into hsub hleads =>
      cases heq
      exact .inr ⟨_, hsub, _, last, rest, sub, rfl, hleads, hnone⟩
  · rintro (hnone | ⟨sub, hsub, names, last, rest, sub', rfl, hleads, hnone⟩)
    · exact ⟨[], name, path, fields, rfl, .here, hnone⟩
    · exact ⟨name :: names, last, rest, sub', rfl, .into hsub hleads, hnone⟩

theorem not_names_nil : ¬Names fields [] v := by
  rintro ⟨names, name, sub, heq, -⟩
  simp at heq

theorem not_lacks_nil : ¬Lacks fields [] := by
  rintro ⟨names, name, rest, sub, heq, -⟩
  simp at heq

/-- What is found at the end of a path. -/
inductive Finds (fields : Fields) (path : List String) : Except SettingError Setting → Prop
  | named {v : Setting} : (∀ w, Names fields path w ↔ w = v) → ¬Lacks fields path → Finds fields path (.ok v)
  | lacking {e : SettingError} : (∀ w, ¬Names fields path w) → Lacks fields path → e.root = .notFound → Finds fields path (.error e)
  | stuck {e : SettingError} : (∀ w, ¬Names fields path w) → ¬Lacks fields path → e.root ≠ .notFound → Finds fields path (.error e)

theorem find_finds (h : path ≠ []) : Finds fields path (find fields path) := by
  induction path generalizing fields with
  | nil => exact absurd rfl h
  | cons name path ih =>
    cases path with
    | nil =>
      have hnames : ∀ w, Names fields [name] w ↔ fields.lookup name = some w := by simp [names_cons, not_names_nil]
      have hlacks : Lacks fields [name] ↔ fields.lookup name = none := by simp [lacks_cons, not_lacks_nil]
      rw [find]
      cases hv : fields.lookup name with
      | none => exact .lacking (by simp [hnames, hv]) (hlacks.mpr hv) rfl
      | some v => exact .named (by simp [hnames, hv, eq_comm]) (by simp [hlacks, hv])
    | cons next rest =>
      have hnames : ∀ w, Names fields (name :: next :: rest) w ↔
          ∃ sub, fields.lookup name = some (.map sub) ∧ Names sub (next :: rest) w := by simp [names_cons]
      have hlacks := @lacks_cons fields name (next :: rest)
      rw [find]
      split
      · rename_i hnone
        exact .lacking (by simp [hnames, hnone]) (hlacks.mpr (.inl hnone)) rfl
      · rename_i sub hsub
        simp only [hsub, Option.some.injEq, map.injEq, exists_eq_left', reduceCtorEq, false_or] at hnames hlacks
        have hfinds := @ih sub (List.cons_ne_nil _ _)
        split
        · rename_i v hv
          rw [hv] at hfinds
          obtain ⟨hw, hl⟩ := hfinds
          exact .named (by simpa [hnames] using hw) (by rwa [hlacks])
        · rename_i e he
          rw [he] at hfinds
          cases hfinds with
          | lacking hw hl hroot => exact .lacking (by simpa [hnames] using hw) (hlacks.mpr hl) hroot
          | stuck hw hl hroot => exact .stuck (by simpa [hnames] using hw) (by rwa [hlacks]) hroot
      · rename_i v hnot hv
        have hno : ∀ sub, v ≠ .map sub := hnot
        exact .stuck (by simp [hnames, hv, hno]) (by simp [hlacks, hv, hno]) SettingError.noConfusion

/-- What a getter answers, where `accepts` gives the values of the type asked for and `fits` the defaults that have it. -/
structure Resolves {α : Type} (accepts : Setting → Option α) (fits : α → Prop) (fields : Fields) (path : List String)
    (read : Option α → Except SettingError α) : Prop where
  /-- A value of the type is the answer, whatever the default. -/
  value : ∀ v a default?, (∀ d ∈ default?, fits d) → Names fields path v → accepts v = some a → read default? = .ok a
  /-- The default is the answer just if a name is absent. -/
  default : (∀ d, fits d → read (some d) = .ok d) ↔ Lacks fields path
  /-- A name that is absent is the root of the error just if there is no default. -/
  notFound : Lacks fields path → ∃ e, read none = .error e ∧ e.root = .notFound
  /-- Whatever else is wrong is another error, default or not. -/
  wrong : ∀ default?, (∀ d ∈ default?, fits d) → ¬Lacks fields path → (∀ v, Names fields path v → accepts v = none) →
    ∃ e, read default? = .error e ∧ e.root ≠ .notFound

section

variable {α : Type} {accepts : Setting → Option α} {fits : α → Prop} {read : Option α → Except SettingError α}

/-- The answer to what is found. Of an error it tells only whether a name is absent. -/
def outcome (accepts : Setting → Option α) (found : Except SettingError Setting) (default? : Option α) : Except Bool α :=
  match found, default? with
  | .ok v, _ => (accepts v).elim (.error false) .ok
  | .error e, some d => if e.isNotFound then .ok d else .error false
  | .error e, none => .error e.isNotFound

@[simp] theorem isNotFound_within (path : String) (e : SettingError) : (SettingError.within path e).isNotFound = e.isNotFound := rfl

@[simp] theorem isNotFound_wrongKind (expected found : String) : (SettingError.wrongKind expected found).isNotFound = false := rfl

def Answers (accepts : Setting → Option α) (fits : α → Prop) (found : Except SettingError Setting)
    (read : Option α → Except SettingError α) : Prop :=
  ∀ default?, (∀ d ∈ default?, fits d) → (read default?).mapError SettingError.isNotFound = outcome accepts found default?

@[simp] theorem pure_eq_ok (a : α) : (pure a : Except SettingError α) = .ok a := rfl

@[simp] theorem throw_eq_error (e : SettingError) : (throw e : Except SettingError α) = .error e := rfl

@[simp] theorem mapError_ok (a : α) : (Except.ok a).mapError SettingError.isNotFound = .ok a := rfl

@[simp] theorem mapError_error (e : SettingError) :
    (Except.error e : Except SettingError α).mapError SettingError.isNotFound = .error e.isNotFound := rfl

@[simp] theorem error_bind {β : Type} (e : SettingError) (f : α → Except SettingError β) :
    (Except.error e >>= f : Except SettingError β) = .error e := rfl

@[simp] theorem ok_bind {β : Type} (a : α) (f : α → Except SettingError β) : (Except.ok a >>= f : Except SettingError β) = f a := rfl

theorem mapError_eq_ok {x : Except SettingError α} {a : α} (h : x.mapError SettingError.isNotFound = .ok a) : x = .ok a := by
  cases x <;> cases h
  rfl

theorem notFound_of_mapError {x : Except SettingError α} (h : x.mapError SettingError.isNotFound = .error true) :
    ∃ e, x = .error e ∧ e.root = .notFound := by
  obtain e | a := x
  · exact ⟨e, rfl, by simpa [SettingError.isNotFound] using Except.error.inj h⟩
  · cases h

theorem wrong_of_mapError {x : Except SettingError α} (h : x.mapError SettingError.isNotFound = .error false) :
    ∃ e, x = .error e ∧ e.root ≠ .notFound := by
  obtain e | a := x
  · exact ⟨e, rfl, by simpa [SettingError.isNotFound] using Except.error.inj h⟩
  · cases h

theorem Answers.resolves (h : Answers accepts fits (find fields path) read) (hpath : path ≠ []) {c d : α} (hc : fits c)
    (hd : fits d) (hne : c ≠ d) : Resolves accepts fits fields path read := by
  have hfinds := @find_finds fields path hpath
  have hsome : ∀ {d}, fits d → ∀ e ∈ some d, fits e := fun hd e he => Option.mem_some_iff.mp he ▸ hd
  have hnone : ∀ e ∈ (none : Option α), fits e := fun _ h => nomatch h
  generalize find fields path = found at h hfinds
  cases hfinds with
  | @named v hw hl =>
    refine ⟨fun w a default? hd hn ha => ?_, iff_of_false (fun hall => ?_) hl, fun h => absurd h hl, fun default? hd _ hno => ?_⟩
    · obtain rfl := (hw w).mp hn
      exact mapError_eq_ok (by rw [h default? hd, outcome, ha]; rfl)
    · -- One value cannot be both defaults.
      have hboth : ∀ d, fits d → Except.ok d = (accepts v).elim (.error false) .ok := fun d hd => by
        have hout := h (some d) (hsome hd)
        rwa [hall d hd] at hout
      exact hne (Except.ok.inj ((hboth c hc).trans (hboth d hd).symm))
    · have hout := h default? hd
      rw [outcome, hno v ((hw v).mpr rfl)] at hout
      exact wrong_of_mapError hout
  | @lacking e hw hl hroot =>
    have hfound : e.isNotFound = true := by simpa [SettingError.isNotFound] using hroot
    refine ⟨fun w _ _ _ hn => absurd hn (hw w), iff_of_true (fun d hd => ?_) hl, fun _ => ?_, fun _ _ h => absurd hl h⟩
    · exact mapError_eq_ok (by rw [h _ (hsome hd), outcome, if_pos hfound])
    · exact notFound_of_mapError ((h none hnone).trans (congrArg _ hfound))
  | @stuck e hw hl hroot =>
    have hfound : e.isNotFound = false := by simpa [SettingError.isNotFound] using hroot
    have hall : ∀ default?, (∀ d ∈ default?, fits d) → ∃ e, read default? = .error e ∧ e.root ≠ .notFound := by
      intro default? hd
      have hout : outcome accepts (.error e) default? = .error false := by cases default? <;> simp [outcome, hfound]
      exact wrong_of_mapError ((h default? hd).trans hout)
    refine ⟨fun w _ _ _ hn => absurd hn (hw w), iff_of_false (fun hok => ?_) hl, fun h => absurd h hl, fun default? hd _ _ => hall default? hd⟩
    obtain ⟨e, he, -⟩ := hall (some c) (hsome hc)
    cases (hok c hc).symm.trans he

end

/-! ### The getters -/

/-- Whether a value is of a kind. Integers are those of a machine word. -/
def hasKind : SettingKind → Setting → Bool
  | .text, .text _ | .bool, .bool _ | .list, .list _ | .map, .map _ => true
  | .int, .int n => isNarrow n
  | _, _ => false

theorem isOf_eq (k : SettingKind) (v : Setting) : v.isOf k = hasKind k v := by
  cases v with
  | int n => by_cases hn : isNarrow n <;> cases k <;> simp [isOf, kindName, hasKind, SettingKind.name, hn]
  | _ => cases k <;> simp [isOf, kindName, hasKind, SettingKind.name]

def int? : Setting → Option Int
  | .int n => if isNarrow n then some n else none
  | _ => none

def bool? : Setting → Option Bool
  | .bool b => some b
  | _ => none

def text? : Setting → Option String
  | .text s => some s
  | _ => none

def texts? : Setting → Option (List String)
  | .list items => items.mapM text?
  | _ => none

variable {field : String}

theorem get_answers : Answers some (fun _ => True) (find fields (Text.cut '.' field)) (get fields field) := by
  intro default? _
  unfold get
  obtain e | v := find fields (Text.cut '.' field)
  · obtain _ | d := default?
    · rfl
    · cases he : e.isNotFound <;> simp [outcome, he]
  · rfl

theorem getOf_answers (k : SettingKind) :
    Answers (Option.guard (hasKind k)) (hasKind k ·) (find fields (Text.cut '.' field)) (getOf k fields field) := by
  intro default? hd
  rw [getOf]
  obtain e | v := find fields (Text.cut '.' field)
  · obtain _ | d := default?
    · rfl
    · have hk := hd d rfl
      cases he : e.isNotFound <;> simp [outcome, he, isOf_eq, hk]
  · cases hk : hasKind k v <;> simp [outcome, isOf_eq, hk, Option.guard]

theorem getInt_answers : Answers int? (isNarrow ·) (find fields (Text.cut '.' field)) (getInt fields field) := by
  intro default? hd
  unfold getInt getOf
  obtain e | v := find fields (Text.cut '.' field)
  · obtain _ | d := default?
    · rfl
    · have hk : isNarrow d = true := hd d rfl
      cases he : e.isNotFound <;> simp [outcome, he, isOf_eq, hasKind, hk]
  · cases v with
    | int n => cases hn : isNarrow n <;> simp [outcome, isOf_eq, hasKind, int?, hn]
    | _ => simp [outcome, isOf_eq, hasKind, int?]

theorem getBool_answers : Answers bool? (fun _ => True) (find fields (Text.cut '.' field)) (getBool fields field) := by
  intro default? hd
  unfold getBool getOf
  obtain e | v := find fields (Text.cut '.' field)
  · obtain _ | d := default?
    · rfl
    · cases he : e.isNotFound <;> simp [outcome, he, isOf_eq, hasKind]
  · cases v <;> simp [outcome, isOf_eq, hasKind, bool?]

theorem textsFrom_mapError (items : List Setting) (i : Nat) :
    (textsFrom i items).mapError SettingError.isNotFound = (items.mapM text?).elim (.error false) .ok := by
  induction items generalizing i with
  | nil => rfl
  | cons v items ih =>
    cases v with
    | text s =>
      have hrest := ih (i + 1)
      rw [textsFrom, List.mapM_cons, text?]
      revert hrest
      cases textsFrom (i + 1) items <;> cases items.mapM text? <;> simp
    | _ => rfl

theorem getTexts_answers : Answers texts? (fun _ => True) (find fields (Text.cut '.' field)) (getTexts fields field) := by
  intro default? hd
  unfold getTexts getOf
  obtain e | v := find fields (Text.cut '.' field)
  · obtain _ | d := default?
    · rfl
    · cases he : e.isNotFound <;> simp [outcome, he]
  · cases v with
    | list items => simpa [outcome, isOf_eq, hasKind, texts?] using textsFrom_mapError items 0
    | _ => cases default? <;> simp [outcome, isOf_eq, hasKind, texts?]

theorem exists_two (k : SettingKind) : ∃ c d, hasKind k c = true ∧ hasKind k d = true ∧ c ≠ d := by
  cases k with
  | text => exact ⟨.text "", .text "a", rfl, rfl, by simp⟩
  | int => exact ⟨.int 0, .int 1, rfl, rfl, by simp⟩
  | bool => exact ⟨.bool true, .bool false, rfl, rfl, by simp⟩
  | list => exact ⟨.list [], .list [.null], rfl, rfl, by simp⟩
  | map => exact ⟨.map [], .map [("", .null)], rfl, rfl, by simp⟩

/-- The names of a field are what stands between its dots, and every getter resolves them: the one for values of any kind, those for
    one kind and the one for lists of texts. -/
theorem getters_resolve (fields : Fields) (field : String) :
    let path := Text.cut '.' field
    (".".intercalate path = field ∧ ∀ name ∈ path, '.' ∉ name.toList) ∧
      Resolves some (fun _ => True) fields path (get fields field) ∧
      (∀ k, Resolves (Option.guard (hasKind k)) (hasKind k ·) fields path (getOf k fields field)) ∧
      Resolves int? (isNarrow ·) fields path (getInt fields field) ∧
      Resolves bool? (fun _ => True) fields path (getBool fields field) ∧
      Resolves texts? (fun _ => True) fields path (getTexts fields field) := by
  refine ⟨Text.cut_spec field, ?_, fun k => ?_, ?_, ?_, ?_⟩
  · exact get_answers.resolves Text.cut_ne_nil (c := .bool true) (d := .bool false) trivial trivial (by simp)
  · obtain ⟨c, d, hc, hd, hne⟩ := exists_two k
    exact (getOf_answers k).resolves Text.cut_ne_nil hc hd hne
  · exact getInt_answers.resolves Text.cut_ne_nil (c := 0) (d := 1) rfl rfl (by simp)
  · exact getBool_answers.resolves Text.cut_ne_nil (c := true) (d := false) trivial trivial (by simp)
  · exact getTexts_answers.resolves Text.cut_ne_nil (c := []) (d := [""]) trivial trivial (by simp)

/-- A limit that is set, a size that is not, and a list with a number in it. -/
theorem getters_resolve_limit :
    let fields : Fields := [("cache", .map [("limit", .int 5), ("names", .list [.text "a", .int 1])])]
    getInt fields "cache.limit" (some 7) = .ok 5 ∧ getInt fields "cache.size" (some 7) = .ok 7 ∧
      ∃ e, getTexts fields "cache.names" (some []) = .error e ∧ e.root ≠ .notFound := by
  intro fields
  have hlimit : Text.cut '.' "cache.limit" = ["cache", "limit"] := by decide +kernel
  have hsize : Text.cut '.' "cache.size" = ["cache", "size"] := by decide +kernel
  have hnames : Text.cut '.' "cache.names" = ["cache", "names"] := by decide +kernel
  refine ⟨?_, ?_, ?_⟩
  · refine (getters_resolve fields "cache.limit").2.2.2.1.value (.int 5) 5 (some 7) (by simp; rfl) ?_ rfl
    exact ⟨["cache"], "limit", _, hlimit, .into rfl .here, rfl⟩
  · exact (getters_resolve fields "cache.size").2.2.2.1.default.mpr ⟨["cache"], "size", [], _, hsize, .into rfl .here, rfl⟩ 7 rfl
  · refine (getters_resolve fields "cache.names").2.2.2.2.2.wrong (some []) (by simp) ?_ ?_
    · simp [hnames, fields, lacks_cons, not_lacks_nil]
    · intro v hv
      rw [hnames] at hv
      have hv : List.lookup "names" [("limit", .int 5), ("names", .list [.text "a", .int 1])] = some v := by simpa [fields, names_cons, not_names_nil] using hv
      cases hv
      rfl

end Planwright.Setting
