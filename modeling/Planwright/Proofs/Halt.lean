import Planwright.Proofs.Plan.Holds

/-! Runs that end. A run with a budget ends if from some budget on a larger one changes nothing. The steps in
    between have no budget, or one that suffices as long as every way down in the plan ends; `Halts` and
    `HaltsIn` say so, and what holds when such a step ends without a fault. -/

namespace Planwright.Run

open Plan

variable {α β : Type}

/-! ### Steps that may stop -/

def Spares (e : Except Fault α) : Prop := e ≠ .error .outOfFuel

section Spares
variable {x : Except Fault α} {f : α → Except Fault β}

theorem Spares.pure {a : α} : Spares (pure a) := nofun

theorem Spares.throw {e : Fault} (he : e ≠ .outOfFuel) : Spares (throw e : Except Fault α) := fun h => he (Except.error.inj h)

theorem Spares.bind (hx : Spares x) (hf : ∀ a, Spares (f a)) : Spares (x >>= f) := by
  cases x with
  | error e => exact fun h => hx (by rw [Except.error.inj h])
  | ok a => exact hf a

theorem Spares.mapM {γ : Type} {f : γ → Except Fault β} {cs : List γ} (h : ∀ c, Spares (f c)) : Spares (cs.mapM f) := by
  induction cs with
  | nil => exact .pure
  | cons c cs ih =>
    rw [List.mapM_cons]
    exact .bind (h c) fun _ => .bind ih fun _ => .pure

theorem Spares.filterM {γ : Type} {f : γ → Except Fault Bool} {cs : List γ} (h : ∀ c, Spares (f c)) : Spares (cs.filterM f) := by
  have haux : ∀ acc, Spares (cs.filterAuxM f acc) := by
    induction cs with
    | nil => exact fun acc => .pure
    | cons c cs ih => exact fun acc => .bind (h c) fun b => ih _
  exact .bind (haux []) fun _ => .pure

end Spares

/-! ### Runs on a plan -/

/-- Whatever the run ends with satisfies `Q`. Where every way down ends, the run does not give up for want of a budget,
    and leaves it so. Where `P` holds, it ends without a fault. -/
structure Halts (x : PlanM α) (p : Plan) (Q : α → Plan → Prop) (P : Prop := False) : Prop where
  spares : p.Acyclic → x p ≠ .error .outOfFuel
  acyclic : p.Acyclic → Ends x p fun _ p' => p'.Acyclic
  ends : Ends x p Q
  runs : P → Runs x p := by exact nofun

section Halts
variable {x : PlanM α} {f : α → PlanM β} {p : Plan} {Q : β → Plan → Prop} {R : α → Plan → Prop} {P P' : Prop}

theorem Halts.mono {R' : α → Plan → Prop} (h : Halts x p R P) (hR : ∀ a p', R a p' → R' a p') : Halts x p R' P :=
  { h with ends := h.ends.mono hR }

theorem Halts.when (h : Halts x p R P) (hP : P' → P) : Halts x p R P' := { h with runs := fun hp => h.runs (hP hp) }

theorem Halts.reaches (h : Halts x p R P) (hP : P) : Reaches x p R := (h.runs hP).reaches h.ends

theorem Meets.halts {E : Fault → Prop} (h : Meets E x p R) (hE : ∀ e, E e → (p.Acyclic → e ≠ .outOfFuel) ∧ ¬P)
    (hR : ∀ {a p'}, R a p' → p.Acyclic → p'.Acyclic) : Halts x p R P where
  spares hp hx := (hE _ (h.faults hx)).1 hp rfl
  acyclic hp := h.ends.mono fun _ _ hR' => hR hR' hp
  ends := h.ends
  runs hP := h.runs fun e he => (hE e he).2 hP

theorem Halts.meets (h : Halts x p R P) : Meets (fun e => (p.Acyclic → e ≠ .outOfFuel) ∧ ¬P) x p R where
  faults hx := by
    refine ⟨fun hp he => h.spares hp (he ▸ hx), fun hP => ?_⟩
    obtain ⟨a, p', hrun⟩ := h.runs hP
    exact nomatch hx.symm.trans hrun
  gives := h.ends _ _

theorem Halts.and {R' : α → Plan → Prop} (h : Halts x p R P) (h' : Ends x p R') : Halts x p (fun a p' => R a p' ∧ R' a p') P :=
  { h with ends := fun a p' hx => ⟨h.ends a p' hx, h' a p' hx⟩ }

theorem Halts.bind (hx : Halts x p R P) (hf : ∀ a p', R a p' → Halts (f a) p' Q P) : Halts (x >>= f) p Q P where
  spares hp h := by
    rcases bind_error.mp h with h | ⟨a, p', ha, h⟩
    · exact hx.spares hp h
    · exact (hf a p' (hx.ends a p' ha)).spares (hx.acyclic hp a p' ha) h
  acyclic hp b p' h := by
    obtain ⟨a, p₁, ha, hb⟩ := bind_run_ok.mp h
    exact (hf a p₁ (hx.ends a p₁ ha)).acyclic (hx.acyclic hp a p₁ ha) b p' hb
  ends := .bind hx.ends fun a p' hR => (hf a p' hR).ends
  runs hP := .bind (hx.runs hP) hx.ends fun a p' hR => (hf a p' hR).runs hP

theorem Halts.of_run {a : α} {p₁ : Plan} (hx : x p = .ok (a, p₁)) (hp : p.Acyclic → p₁.Acyclic) (h : R a p₁) :
    Halts x p R P := by
  refine ⟨fun _ herr => ?_, fun hac a' p' h' => ?_, fun a' p' h' => ?_, fun _ => ⟨a, p₁, hx⟩⟩
  · rw [hx] at herr
    cases herr
  · rw [hx] at h'
    cases h'
    exact hp hac
  · rw [hx] at h'
    cases h'
    exact h

theorem Reaches.halts (h : Reaches x p R) (hR : ∀ {a p'}, R a p' → p.Acyclic → p'.Acyclic) : Halts x p R P := by
  obtain ⟨a, p', hx, h⟩ := h
  exact .of_run hx (hR h) h

theorem Halts.read {a : α} (hx : x p = .ok (a, p)) (hf : Halts (f a) p Q P) : Halts (x >>= f) p Q P :=
  .bind (.of_run (R := fun a' p' => a' = a ∧ p' = p) hx id ⟨rfl, rfl⟩) fun _ _ ⟨ha, hp⟩ => ha ▸ hp ▸ hf

theorem Halts.pure {a : α} (h : R a p) : Halts (pure a) p R P := .of_run rfl id h

theorem Halts.throw {e : Fault} (he : e ≠ .outOfFuel) (hP : ¬P := by exact nofun) : Halts (throw e) p R P :=
  ⟨fun _ h => he (Except.error.inj h), fun _ => .throw, .throw, fun h => absurd h hP⟩

theorem Halts.get {f : Plan → PlanM β} (h : Halts (f p) p Q P) : Halts (get >>= f) p Q P :=
  ⟨h.spares, h.acyclic, h.ends, h.runs⟩

theorem Halts.lift {e : Except Fault α} (he : Spares e) (h : ∀ a, e = .ok a → R a p) (hP : P → ∃ a, e = .ok a := by exact nofun) :
    Halts (liftM e) p R P := by
  cases e with
  | error e => exact .throw (fun heq => he (congrArg _ heq)) fun hp => nomatch hP hp
  | ok a => exact .pure (h a rfl)

end Halts

/-! ### Runs with a state of their own -/

section HaltsIn
variable {σ : Type}

/-- The same of a run that keeps a state besides the plan. -/
def HaltsIn (x : StateT σ PlanM α) (c : σ) (p : Plan) (Q : α → σ → Plan → Prop) (P : Prop := False) : Prop :=
  Halts (x c) p (fun r p' => Q r.1 r.2 p') P

variable {x : StateT σ PlanM α} {f : α → StateT σ PlanM β} {c : σ} {p : Plan} {Q : β → σ → Plan → Prop}
  {R : α → σ → Plan → Prop} {P P' : Prop}

theorem HaltsIn.mono {R' : α → σ → Plan → Prop} (h : HaltsIn x c p R P) (hR : ∀ a c' p', R a c' p' → R' a c' p') :
    HaltsIn x c p R' P :=
  Halts.mono h fun r p' => hR r.1 r.2 p'

theorem HaltsIn.when (h : HaltsIn x c p R P) (hP : P' → P) : HaltsIn x c p R P' := Halts.when h hP

theorem HaltsIn.ends (h : HaltsIn x c p R P) : EndsIn x c p R := fun a c' => Halts.ends h (a, c')

theorem HaltsIn.runsTo (h : HaltsIn x c p R P) (hP : P) : RunsTo x c p R := by
  obtain ⟨⟨a, c'⟩, p', hrun⟩ := Halts.reaches h hP
  exact ⟨a, c', p', hrun⟩

theorem HaltsIn.bind (hx : HaltsIn x c p R P) (hf : ∀ a c' p', R a c' p' → HaltsIn (f a) c' p' Q P) :
    HaltsIn (x >>= f) c p Q P :=
  Halts.bind hx fun r p' => hf r.1 r.2 p'

theorem HaltsIn.lift {x : PlanM α} (h : Halts x p (fun a p' => R a c p') P) : HaltsIn (liftM x) c p R P :=
  Halts.bind (f := fun a => (Pure.pure (a, c) : PlanM (α × σ))) h fun _ _ hR => .pure hR

theorem HaltsIn.step {x : PlanM α} {S : α → Plan → Prop} (hx : Halts x p S P)
    (hf : ∀ a p', S a p' → HaltsIn (f a) c p' Q P) : HaltsIn (liftM x >>= f) c p Q P :=
  .bind (.lift (R := fun a c' p' => c' = c ∧ S a p') (hx.mono fun _ _ h => ⟨rfl, h⟩)) fun a _ p' ⟨hc, hs⟩ =>
    hc ▸ hf a p' hs

theorem HaltsIn.read {x : PlanM α} {a : α} (hx : x p = .ok (a, p)) (hf : HaltsIn (f a) c p Q P) :
    HaltsIn (liftM x >>= f) c p Q P :=
  .step (.of_run (R := fun a' p' => a' = a ∧ p' = p) hx id ⟨rfl, rfl⟩) fun _ _ ⟨ha, hp⟩ => ha ▸ hp ▸ hf

theorem HaltsIn.pure {a : α} (h : R a c p) : HaltsIn (pure a) c p R P := Halts.pure h

theorem HaltsIn.throw {e : Fault} (he : e ≠ .outOfFuel) : HaltsIn (throw e) c p R := Halts.throw he

theorem HaltsIn.get {f : σ → StateT σ PlanM β} (h : HaltsIn (f c) c p Q P) : HaltsIn (get >>= f) c p Q P := h

theorem HaltsIn.getPlan {f : Plan → StateT σ PlanM β} (h : HaltsIn (f p) c p Q P) : HaltsIn (getThe Plan >>= f) c p Q P :=
  .read rfl h

theorem HaltsIn.modify {g : σ → σ} {Q : Unit → σ → Plan → Prop} (h : Q () (g c) p) : HaltsIn (modify g) c p Q P :=
  Halts.of_run rfl id h

theorem HaltsIn.ite {b : Prop} [Decidable b] {x y : StateT σ PlanM α} (hx : b → HaltsIn x c p R P) (hy : ¬b → HaltsIn y c p R P) :
    HaltsIn (if b then x else y) c p R P := by
  by_cases h : b
  · simpa only [if_pos h] using hx h
  · simpa only [if_neg h] using hy h

theorem HaltsIn.mapM {γ : Type} {f : γ → StateT σ PlanM β} {I : σ → Plan → Prop} {R : γ → β → Prop} {as : List γ}
    (hf : ∀ a ∈ as, ∀ c p, I c p → HaltsIn (f a) c p (fun b c' p' => I c' p' ∧ R a b) P) (h : I c p) :
    HaltsIn (as.mapM f) c p (fun bs c' p' => I c' p' ∧ List.Forall₂ R as bs) P := by
  induction as generalizing c p with
  | nil => exact .pure ⟨h, .nil⟩
  | cons a as ih =>
    rw [List.mapM_cons]
    refine .bind (hf a List.mem_cons_self c p h) fun b c₁ p₁ ⟨h₁, hb⟩ => ?_
    refine .bind (ih (fun a ha => hf a (List.mem_cons_of_mem _ ha)) h₁) fun bs c₂ p₂ ⟨h₂, hbs⟩ => ?_
    exact .pure ⟨h₂, .cons hb hbs⟩

/-! ### Budgets that suffice -/

/-- Whatever the run ends with satisfies `Q`, with any budget. Where every way down ends, the run ends in one and the same
    way from some budget on, which is not for want of a budget. -/
structure Stabilizes (f : Nat → StateT σ PlanM α) (c : σ) (p : Plan) (Q : α → σ → Plan → Prop) : Prop where
  ends : ∀ m, EndsIn (f m) c p Q
  stable : p.Acyclic → ∃ n r, r ≠ .error .outOfFuel ∧ (∀ a c' p', r = .ok ((a, c'), p') → p'.Acyclic) ∧ ∀ m, n ≤ m → f m c p = r

variable {y : Nat → StateT σ PlanM α} {g : Nat → α → StateT σ PlanM β}

theorem HaltsIn.stabilizes (h : HaltsIn x c p R) : Stabilizes (fun _ => x) c p R :=
  ⟨fun _ => h.ends, fun hp => ⟨0, x c p, h.spares hp, fun a c' => h.acyclic hp (a, c'), fun _ _ => rfl⟩⟩

theorem Stabilizes.mono {R' : α → σ → Plan → Prop} (h : Stabilizes y c p R) (hR : ∀ a c' p', R a c' p' → R' a c' p') :
    Stabilizes y c p R' :=
  { h with ends := fun m => (h.ends m).mono hR }

theorem Stabilizes.succ {y : Nat → StateT σ PlanM α} (h₀ : EndsIn (y 0) c p R) (h : Stabilizes (fun n => y (n + 1)) c p R) :
    Stabilizes y c p R := by
  refine ⟨fun m => ?_, fun hp => ?_⟩
  · cases m with
    | zero => exact h₀
    | succ m => exact h.ends m
  · obtain ⟨n, r, hr, hac, hm⟩ := h.stable hp
    refine ⟨n + 1, r, hr, hac, fun m hle => ?_⟩
    obtain ⟨m, rfl⟩ : ∃ m', m = m' + 1 := ⟨m - 1, by omega⟩
    exact hm m (by omega)

theorem Stabilizes.bind (hy : Stabilizes y c p R) (hg : ∀ a c' p', R a c' p' → Stabilizes (fun n => g n a) c' p' Q) :
    Stabilizes (fun n => y n >>= g n) c p Q := by
  refine ⟨fun m => .bind (hy.ends m) fun a c' p' hR => (hg a c' p' hR).ends m, fun hp => ?_⟩
  obtain ⟨n, r, hr, hac, hm⟩ := hy.stable hp
  have hrun : ∀ m, n ≤ m → (y m >>= g m) c p = (r >>= fun r => g m r.1.1 r.1.2 r.2 : Except Fault ((β × σ) × Plan)) :=
    fun m hle => by rw [← hm m hle]; rfl
  cases r with
  | error e => exact ⟨n, .error e, fun h => hr (by rw [Except.error.inj h]), nofun, hrun⟩
  | ok r =>
    obtain ⟨⟨a, c'⟩, p'⟩ := r
    obtain ⟨n', r', hr', hac', hm'⟩ := (hg a c' p' (hy.ends n a c' p' (hm n le_rfl))).stable (hac a c' p' rfl)
    exact ⟨max n n', r', hr', hac', fun m hle => (hrun m (by omega)).trans (hm' m (by omega))⟩

theorem Stabilizes.after (hx : HaltsIn x c p R) (hg : ∀ a c' p', R a c' p' → Stabilizes (fun n => g n a) c' p' Q) :
    Stabilizes (fun n => x >>= g n) c p Q :=
  .bind hx.stabilizes hg

theorem Stabilizes.step {x : PlanM α} {S : α → Plan → Prop} (hx : Halts x p S)
    (hg : ∀ a p', S a p' → Stabilizes (fun n => g n a) c p' Q) : Stabilizes (fun n => liftM x >>= g n) c p Q :=
  .after (R := fun a c' p' => c' = c ∧ S a p') (.lift (hx.mono fun _ _ h => ⟨rfl, h⟩)) fun a _ p' ⟨hc, hs⟩ =>
    hc ▸ hg a p' hs

theorem Stabilizes.read {x : PlanM α} {a : α} (hx : x p = .ok (a, p)) (hg : Stabilizes (fun n => g n a) c p Q) :
    Stabilizes (fun n => liftM x >>= g n) c p Q :=
  .step (.of_run (R := fun a' p' => a' = a ∧ p' = p) hx id ⟨rfl, rfl⟩) fun _ _ ⟨ha, hp⟩ => ha ▸ hp ▸ hg

theorem Stabilizes.ite {b : Prop} [Decidable b] {y z : Nat → StateT σ PlanM α} (hy : b → Stabilizes y c p R)
    (hz : ¬b → Stabilizes z c p R) : Stabilizes (fun n => if b then y n else z n) c p R := by
  by_cases h : b
  · simpa only [if_pos h] using hy h
  · simpa only [if_neg h] using hz h

theorem Stabilizes.get {g : Nat → σ → StateT σ PlanM β} (hg : Stabilizes (fun n => g n c) c p Q) :
    Stabilizes (fun n => MonadState.get >>= g n) c p Q := ⟨hg.ends, hg.stable⟩

theorem Stabilizes.getPlan {g : Nat → Plan → StateT σ PlanM β} (hg : Stabilizes (fun n => g n p) c p Q) :
    Stabilizes (fun n => getThe Plan >>= g n) c p Q := ⟨hg.ends, hg.stable⟩

end HaltsIn

end Planwright.Run
