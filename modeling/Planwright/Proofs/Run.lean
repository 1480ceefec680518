import Mathlib.Data.List.Forall2
import Planwright.Rule.Context

/-! Runs taken apart step by step. A run on a plan is read as a function from the plan to its answer and the
    plan after it; a run of rules or of a copy also has a state of its own. `Ends` and `EndsIn` say what holds
    if a run ends without a fault, `Reaches` and `RunsTo` that it does. -/

namespace Planwright.Run

variable {α β : Type}

/-! ### Steps that may stop -/

@[simp] theorem pure_ok {a b : α} : (pure a : Except Fault α) = .ok b ↔ a = b := by
  simp [pure, Except.pure]

theorem bind_ok {ε : Type} {x : Except ε α} {f : α → Except ε β} {b : β} :
    (x >>= f) = .ok b ↔ ∃ a, x = .ok a ∧ f a = .ok b := by
  cases x <;> simp [bind, Except.bind]

theorem exists_ok_iff {ε : Type} {x : Except ε α} {a : α} (hx : x = .ok a) {P : α → Prop} : (∃ b, x = .ok b ∧ P b) ↔ P a := by
  simp [hx]

theorem mapM_ok {f : α → Except Fault β} {as : List α} {bs : List β} :
    as.mapM f = .ok bs ↔ List.Forall₂ (fun a b => f a = .ok b) as bs := by
  induction as generalizing bs with
  | nil =>
    cases bs with
    | nil => simp
    | cons b bs => simp
  | cons a as ih =>
    simp only [List.mapM_cons, bind_ok, pure_ok, ih]
    constructor
    · rintro ⟨b, hb, bs', hbs, rfl⟩
      exact .cons hb hbs
    · intro h
      cases h with
      | cons hb hbs => exact ⟨_, hb, _, hbs, rfl⟩

theorem mapM_some {f : α → Option β} {as : List α} {bs : List β} (h : as.mapM f = some bs) :
    List.Forall₂ (fun a b => f a = some b) as bs := by
  induction as generalizing bs with
  | nil =>
    cases h
    exact .nil
  | cons a as ih =>
    simp only [List.mapM_cons, Option.bind_eq_bind, Option.bind_eq_some_iff, Option.pure_def, Option.some.injEq] at h
    obtain ⟨b, hb, bs', hbs, rfl⟩ := h
    exact .cons hb (ih hbs)

theorem mapM_of_forall₂ {f : α → Option β} {as : List α} {bs : List β}
    (h : List.Forall₂ (fun a b => f a = some b) as bs) : as.mapM f = some bs := by
  induction h with
  | nil => rfl
  | cons ha _ ih => simp [List.mapM_cons, ha, ih]

theorem forall₂_imp_mem {γ : Type} {R S : α → γ → Prop} {as : List α} {cs : List γ} (h : List.Forall₂ R as cs)
    (hS : ∀ a ∈ as, ∀ c ∈ cs, R a c → S a c) : List.Forall₂ S as cs := by
  induction h with
  | nil => exact .nil
  | cons hac _ ih =>
    refine .cons (hS _ List.mem_cons_self _ List.mem_cons_self hac) (ih fun a ha c hc => ?_)
    exact hS a (List.mem_cons_of_mem _ ha) c (List.mem_cons_of_mem _ hc)

theorem exists_of_forall₂_right {γ : Type} {R : α → γ → Prop} {as : List α} {cs : List γ} (h : List.Forall₂ R as cs)
    {c : γ} (hc : c ∈ cs) : ∃ a ∈ as, R a c := by
  induction h with
  | nil => cases hc
  | cons hac _ ih =>
    rcases List.mem_cons.mp hc with rfl | hc
    · exact ⟨_, List.mem_cons_self, hac⟩
    · obtain ⟨a, ha, hac'⟩ := ih hc
      exact ⟨a, List.mem_cons_of_mem _ ha, hac'⟩

theorem getElem?_of_forall₂ {γ : Type} {R : α → γ → Prop} {as : List α} {cs : List γ} (h : List.Forall₂ R as cs)
    {i : Nat} {a : α} (ha : as[i]? = some a) : ∃ c, cs[i]? = some c ∧ R a c := by
  induction h generalizing i with
  | nil => cases ha
  | cons hac _ ih =>
    cases i with
    | zero =>
      cases ha
      exact ⟨_, rfl, hac⟩
    | succ i => exact ih ha

theorem forall₂_set {R : α → α → Prop} {as : List α} {i : Nat} {b : α} (hi : ∀ a, as[i]? = some a → R a b)
    (ho : ∀ j a, j ≠ i → as[j]? = some a → R a a) : List.Forall₂ R as (as.set i b) := by
  induction as generalizing i with
  | nil => exact .nil
  | cons a as ih =>
    cases i with
    | zero =>
      refine .cons (hi a rfl) (List.forall₂_same.mpr fun a' ha' => ?_)
      obtain ⟨j, hj⟩ := List.mem_iff_getElem?.mp ha'
      exact ho (j + 1) a' (Nat.succ_ne_zero j) hj
    | succ i =>
      refine .cons (ho 0 a (Nat.succ_ne_zero i).symm rfl) (ih hi fun j a' hj ha' => ?_)
      exact ho (j + 1) a' (fun h => hj (Nat.succ.inj h)) ha'

theorem eq_map_of_forall₂ {γ : Type} {g : α → γ} {as : List α} {cs : List γ}
    (h : List.Forall₂ (fun a c => c = g a) as cs) : cs = as.map g := by
  induction h with
  | nil => rfl
  | cons hac _ ih => rw [hac, ih, List.map_cons]

theorem map_eq_map_of_forall₂ {γ δ : Type} {f : α → δ} {g : γ → δ} {as : List α} {cs : List γ}
    (h : List.Forall₂ (fun a c => f a = g c) as cs) : as.map f = cs.map g := by
  induction h with
  | nil => rfl
  | cons hac _ ih => rw [List.map_cons, List.map_cons, hac, ih]

/-! ### Runs with a state -/

section Meets
variable {σ ε : Type} {x : StateT σ (Except ε) α} {f : α → StateT σ (Except ε) β} {s : σ} {Q : β → σ → Prop} {R : α → σ → Prop}

theorem bind_run (x : StateT σ (Except ε) α) (f : α → StateT σ (Except ε) β) (s : σ) : (x >>= f) s = x s >>= fun r => f r.1 r.2 := rfl

theorem bind_run_ok {b : β} {s' : σ} : (x >>= f) s = .ok (b, s') ↔ ∃ a s₁, x s = .ok (a, s₁) ∧ f a s₁ = .ok (b, s') := by
  rw [bind_run, bind_ok]
  exact ⟨fun ⟨⟨a, s₁⟩, hx, hf⟩ => ⟨a, s₁, hx, hf⟩, fun ⟨a, s₁, hx, hf⟩ => ⟨(a, s₁), hx, hf⟩⟩

theorem bind_error {e : ε} : (x >>= f) s = .error e ↔ x s = .error e ∨ ∃ a s', x s = .ok (a, s') ∧ f a s' = .error e := by
  rw [bind_run]
  cases hx : x s with
  | error e' => simp [bind, Except.bind]
  | ok r => simp [bind, Except.bind, Prod.ext_iff]

/-- Whatever the run ends with satisfies `Q`, and an error that it stops with satisfies `E`. -/
structure Meets (E : ε → Prop) (x : StateT σ (Except ε) α) (s : σ) (Q : α → σ → Prop) : Prop where
  faults {e} : x s = .error e → E e
  gives {a s'} : x s = .ok (a, s') → Q a s'

variable {E E' : ε → Prop}

theorem Meets.mono {Q' : α → σ → Prop} (h : Meets E x s R) (hE : ∀ e, E e → E' e) (hQ : ∀ a s', R a s' → Q' a s') : Meets E' x s Q' :=
  ⟨fun hx => hE _ (h.faults hx), fun hx => hQ _ _ (h.gives hx)⟩

theorem Meets.bind (hx : Meets E x s R) (hf : ∀ a s', R a s' → Meets E (f a) s' Q) : Meets E (x >>= f) s Q := by
  constructor
  · intro e h
    rcases bind_error.mp h with h | ⟨a, s', ha, h⟩
    · exact hx.faults h
    · exact (hf a s' (hx.gives ha)).faults h
  · intro b s' h
    obtain ⟨a, s₁, ha, hb⟩ := bind_run_ok.mp h
    exact (hf a s₁ (hx.gives ha)).gives hb

theorem Meets.of_run {a : α} {s' : σ} (hx : x s = .ok (a, s')) (h : R a s') : Meets E x s R := by
  refine ⟨fun he => ?_, fun h' => ?_⟩
  · cases hx.symm.trans he
  · cases hx.symm.trans h'
    exact h

theorem Meets.pure {a : α} (h : R a s) : Meets E (pure a) s R := .of_run rfl h

theorem Meets.throw {e : ε} (h : E e) : Meets E (throw e) s R := ⟨fun he => Except.error.inj he ▸ h, nofun⟩

theorem Meets.lift {r : Except ε α} (hE : ∀ e, r = .error e → E e) (h : ∀ a, r = .ok a → R a s) : Meets E (liftM r) s R := by
  cases r with
  | error e => exact .throw (hE e rfl)
  | ok a => exact .pure (h a rfl)

theorem Meets.get {f : σ → StateT σ (Except ε) β} (h : Meets E (f s) s Q) : Meets E (get >>= f) s Q := ⟨h.faults, h.gives⟩

end Meets

/-! ### Runs on a plan -/

/-- Whatever the run ends with satisfies `Q`. -/
def Ends (x : PlanM α) (p : Plan) (Q : α → Plan → Prop) : Prop := ∀ a p', x p = .ok (a, p') → Q a p'

section Ends
variable {x : PlanM α} {f : α → PlanM β} {p : Plan} {Q : β → Plan → Prop} {R : α → Plan → Prop}

theorem Ends.mono {Q' : α → Plan → Prop} (h : Ends x p R) (hQ : ∀ a p', R a p' → Q' a p') : Ends x p Q' :=
  fun a p' hx => hQ a p' (h a p' hx)

theorem Ends.bind (hx : Ends x p R) (hf : ∀ a p', R a p' → Ends (f a) p' Q) : Ends (x >>= f) p Q := by
  intro b p' h
  obtain ⟨a, p₁, ha, hb⟩ := bind_run_ok.mp h
  exact hf a p₁ (hx a p₁ ha) b p' hb

theorem Ends.read {a : α} {p₁ : Plan} (hx : x p = .ok (a, p₁)) (hf : Ends (f a) p₁ Q) : Ends (x >>= f) p Q := by
  intro b p' h
  obtain ⟨a', p₂, ha, hb⟩ := bind_run_ok.mp h
  rw [hx] at ha
  cases ha
  exact hf b p' hb

theorem Ends.pure {a : α} (h : R a p) : Ends (pure a) p R := by
  intro a' p' h'
  cases h'
  exact h

theorem Ends.throw {e : Fault} : Ends (throw e) p R := fun _ _ h => nomatch h

theorem Ends.get {f : Plan → PlanM β} (h : Ends (f p) p Q) : Ends (get >>= f) p Q := h

theorem Ends.modify {g : Plan → Plan} {Q : Unit → Plan → Prop} (h : Q () (g p)) : Ends (modify g) p Q := by
  intro a p' h'
  cases h'
  exact h

theorem Ends.lift {e : Except Fault α} (h : ∀ a, e = .ok a → R a p) : Ends (liftM e) p R := by
  intro a p' h'
  cases e with
  | error => cases h'
  | ok =>
    cases h'
    exact h _ rfl

theorem Ends.forM {f : α → PlanM PUnit} {I : Plan → Prop} (hf : ∀ a p, I p → Ends (f a) p fun _ p' => I p') (h : I p) (as : List α) :
    Ends (as.forM f) p fun _ p' => I p' := by
  induction as generalizing p with
  | nil => exact .pure h
  | cons a as ih => exact .bind (hf a p h) fun _ _ h₁ => ih h₁

def Runs (x : PlanM α) (p : Plan) : Prop := ∃ a p', x p = .ok (a, p')

theorem Runs.bind (hx : Runs x p) (hR : Ends x p R) (hf : ∀ a p', R a p' → Runs (f a) p') : Runs (x >>= f) p := by
  obtain ⟨a, p₁, ha⟩ := hx
  obtain ⟨b, p', hb⟩ := hf a p₁ (hR a p₁ ha)
  exact ⟨b, p', bind_run_ok.mpr ⟨a, p₁, ha, hb⟩⟩

/-- The run ends without a fault, and what it ends with satisfies `Q`. -/
def Reaches (x : PlanM α) (p : Plan) (Q : α → Plan → Prop) : Prop := ∃ a p', x p = .ok (a, p') ∧ Q a p'

theorem Runs.reaches (hx : Runs x p) (hR : Ends x p R) : Reaches x p R := by
  obtain ⟨a, p', ha⟩ := hx
  exact ⟨a, p', ha, hR a p' ha⟩

/-- What is seen of a run by running it. -/
theorem Reaches.of_run {γ : Type} {f : α × Plan → γ} {b : γ} (h : (x p).toOption.map f = some b) :
    Reaches x p fun a p' => f (a, p') = b := by
  cases hx : x p with
  | error => simp [hx, Except.toOption] at h
  | ok r => exact ⟨r.1, r.2, hx, by simpa [hx, Except.toOption] using h⟩

theorem Ends.reaches {f : α → Bool} (hR : Ends x p R) (h : (x p).toOption.map (fun r => f r.1) = some true) :
    Reaches x p fun a p' => f a = true ∧ R a p' := by
  obtain ⟨a, p', ha, hf⟩ := Reaches.of_run h
  exact ⟨a, p', ha, hf, hR a p' ha⟩

theorem Reaches.mono {Q' : α → Plan → Prop} (h : Reaches x p R) (hQ : ∀ a p', R a p' → Q' a p') : Reaches x p Q' := by
  obtain ⟨a, p', ha, h⟩ := h
  exact ⟨a, p', ha, hQ a p' h⟩

theorem Reaches.bind (hx : Reaches x p R) (hf : ∀ a p', R a p' → Reaches (f a) p' Q) : Reaches (x >>= f) p Q := by
  obtain ⟨a, p₁, ha, h₁⟩ := hx
  obtain ⟨b, p', hb, h'⟩ := hf a p₁ h₁
  exact ⟨b, p', bind_run_ok.mpr ⟨a, p₁, ha, hb⟩, h'⟩

theorem Reaches.read {a : α} {p₁ : Plan} (hx : x p = .ok (a, p₁)) (hf : Reaches (f a) p₁ Q) : Reaches (x >>= f) p Q :=
  .bind (R := fun b p' => b = a ∧ p' = p₁) ⟨a, p₁, hx, rfl, rfl⟩ fun _ _ ⟨hb, hp⟩ => hb ▸ hp ▸ hf

theorem Reaches.pure {a : α} (h : R a p) : Reaches (pure a) p R := ⟨a, p, rfl, h⟩

theorem Meets.ends {E : Fault → Prop} (h : Meets E x p R) : Ends x p R := fun _ _ => h.gives

theorem Meets.runs {E : Fault → Prop} (h : Meets E x p R) (hE : ∀ e, ¬E e) : Runs x p := by
  cases hx : x p with
  | error e => exact absurd (h.faults hx) (hE e)
  | ok r => exact ⟨r.1, r.2, hx⟩

end Ends

/-! ### Runs with a state of their own -/

/-- Whatever a run that keeps a state besides the plan ends with satisfies `Q`. -/
def EndsIn {σ : Type} (x : StateT σ PlanM α) (c : σ) (p : Plan) (Q : α → σ → Plan → Prop) : Prop :=
  ∀ a c' p', x c p = .ok ((a, c'), p') → Q a c' p'

section EndsIn
variable {σ : Type} {x : StateT σ PlanM α} {f : α → StateT σ PlanM β} {c : σ} {p : Plan} {Q : β → σ → Plan → Prop}
  {R : α → σ → Plan → Prop}

theorem EndsIn.mono {R' : α → σ → Plan → Prop} (h : EndsIn x c p R) (hR : ∀ a c' p', R a c' p' → R' a c' p') :
    EndsIn x c p R' :=
  fun a c' p' hx => hR a c' p' (h a c' p' hx)

theorem EndsIn.bind (hx : EndsIn x c p R) (hf : ∀ a c' p', R a c' p' → EndsIn (f a) c' p' Q) :
    EndsIn (x >>= f) c p Q := by
  intro b c' p' h
  have h' : ((x c : PlanM (α × σ)) >>= fun r => f r.1 r.2) p = .ok ((b, c'), p') := h
  obtain ⟨⟨a, c₁⟩, p₁, ha, hb⟩ := bind_run_ok.mp h'
  exact hf a c₁ p₁ (hx a c₁ p₁ ha) b c' p' hb

theorem EndsIn.lift {x : PlanM α} (h : Ends x p fun a p' => R a c p') : EndsIn (liftM x) c p R := by
  intro a c' p' hx
  have hx' : (x >>= fun a => (Pure.pure (a, c) : PlanM (α × σ))) p = .ok ((a, c'), p') := hx
  obtain ⟨a', p₁, ha, hb⟩ := bind_run_ok.mp hx'
  cases hb
  exact h _ _ ha

theorem EndsIn.step {x : PlanM α} {S : α → Plan → Prop} (hx : Ends x p S)
    (hf : ∀ a p', S a p' → EndsIn (f a) c p' Q) : EndsIn (liftM x >>= f) c p Q :=
  .bind (.lift (R := fun a c' p' => c' = c ∧ S a p') (hx.mono fun _ _ h => ⟨rfl, h⟩)) fun a _ p' ⟨hc, hs⟩ =>
    hc ▸ hf a p' hs

theorem EndsIn.read {x : PlanM α} {a : α} {p₁ : Plan} (hx : x p = .ok (a, p₁)) (hf : EndsIn (f a) c p₁ Q) :
    EndsIn (liftM x >>= f) c p Q := by
  refine .step (S := fun a' p' => a' = a ∧ p' = p₁) (fun a' p' h => ?_) fun a' p' ⟨ha, hp⟩ => ha ▸ hp ▸ hf
  rw [hx] at h
  cases h
  exact ⟨rfl, rfl⟩

theorem EndsIn.pure {a : α} (h : R a c p) : EndsIn (pure a) c p R := by
  intro a' c' p' h'
  cases h'
  exact h

theorem EndsIn.throw {e : Fault} : EndsIn (throw e) c p R := fun _ _ _ h => nomatch h

theorem EndsIn.get {f : σ → StateT σ PlanM β} (h : EndsIn (f c) c p Q) : EndsIn (get >>= f) c p Q := h

theorem EndsIn.getPlan {f : Plan → StateT σ PlanM β} (h : EndsIn (f p) c p Q) : EndsIn (getThe Plan >>= f) c p Q := h

theorem EndsIn.modify {g : σ → σ} {Q : Unit → σ → Plan → Prop} (h : Q () (g c) p) :
    EndsIn (modify g) c p Q := by
  intro a c' p' h'
  cases h'
  exact h

end EndsIn

/-- The run ends without a fault, and what it ends with satisfies `Q`. -/
def RunsTo {σ : Type} (x : StateT σ PlanM α) (c : σ) (p : Plan) (Q : α → σ → Plan → Prop) : Prop :=
  ∃ a c' p', x c p = .ok ((a, c'), p') ∧ Q a c' p'

section RunsTo
variable {σ : Type} {x : StateT σ PlanM α} {f : α → StateT σ PlanM β} {c : σ} {p : Plan} {Q : β → σ → Plan → Prop}
  {R : α → σ → Plan → Prop}

theorem RunsTo.mono {R' : α → σ → Plan → Prop} (h : RunsTo x c p R) (hR : ∀ a c' p', R a c' p' → R' a c' p') : RunsTo x c p R' := by
  obtain ⟨a, c', p', hx, h⟩ := h
  exact ⟨a, c', p', hx, hR a c' p' h⟩

theorem RunsTo.bind (hx : RunsTo x c p R) (hf : ∀ a c' p', R a c' p' → RunsTo (f a) c' p' Q) : RunsTo (x >>= f) c p Q := by
  obtain ⟨a, c₁, p₁, ha, h₁⟩ := hx
  obtain ⟨b, c', p', hb, h'⟩ := hf a c₁ p₁ h₁
  have hrun : ((x c : PlanM (α × σ)) >>= fun r => f r.1 r.2) p = .ok ((b, c'), p') := bind_run_ok.mpr ⟨(a, c₁), p₁, ha, hb⟩
  exact ⟨b, c', p', hrun, h'⟩

theorem RunsTo.pure {a : α} (h : R a c p) : RunsTo (pure a) c p R := ⟨a, c, p, rfl, h⟩

theorem RunsTo.lift {x : PlanM α} {a : α} {p₁ : Plan} (hx : x p = .ok (a, p₁)) (h : R a c p₁) : RunsTo (liftM x) c p R := by
  have hrun : (x >>= fun a => (Pure.pure (a, c) : PlanM (α × σ))) p = .ok ((a, c), p₁) := bind_run_ok.mpr ⟨a, p₁, hx, rfl⟩
  exact ⟨a, c, p₁, hrun, h⟩

theorem RunsTo.read {x : PlanM α} {a : α} {p₁ : Plan} (hx : x p = .ok (a, p₁)) (hf : RunsTo (f a) c p₁ Q) :
    RunsTo (liftM x >>= f) c p Q :=
  .bind (R := fun a' c' p' => a' = a ∧ c' = c ∧ p' = p₁) (.lift hx ⟨rfl, rfl, rfl⟩) fun _ _ _ ⟨ha, hc, hp⟩ => ha ▸ hc ▸ hp ▸ hf

end RunsTo

end Planwright.Run
