import Planwright.Proofs.Engine.Walk
import Planwright.Proofs.Ledger.Filter

/-! Whole runs, in any ledger: what rules do to the trees that they are given, settling does to every tree. -/

namespace Planwright.Ledger

open Run Plan Asset Engine

variable {l : Ledger} {A F : Multiset Asset} {n : NodeId} {ρ : Role} {k : OpKind} {c : Context} {p : Plan} {i count : Nat}

/-- What is at hand does not depend on what the run keeps in mind. -/
def Free (l : Ledger) : Prop := ∀ {c c' p A}, l.Owns c p A → l.Owns c' p A

theorem Free.modify (hl : l.Free) {f : Context → Context} : l.DealsIn A (modify f) fun _ => A := fun _ _ _ ho => ⟨rfl, .modify (hl ho)⟩

theorem catchUp_agree : l.DealsIn A (catchUp n) fun _ => A := by
  refine .get fun c => ?_
  dsimp only
  split
  · refine .quiet (.plan info_looks) fun i => ?_
    split
    · exact renameSubtree_agree
    · exact .pure rfl
  · exact .pure rfl

theorem refresh_agree : l.DealsIn A (refresh n) fun _ => A := by
  refine .get fun c => .bind renameNode_deals.agree fun _ => ?_
  exact .quiet (.plan recompute_looks) fun _ => .pure rfl

theorem record_agree (hl : l.Free) {rule : Rule} {out : NodeId} : l.DealsIn A (record rule out) fun _ => A :=
  .bind hl.modify fun _ => .quiet (.plan recompute_looks) fun _ => .pure rfl

section Children
variable {settle settle' : Nat → NodeId → RuleM NodeId} (hset : ∀ i, l.Settles (settle i) (settle' i))
include hset

theorem Opened.turn (h : l.Opened c p k n count F) (hi : i < count) : settleChild settle n i c p = settleChild settle' n i c p ∧
    EndsIn (settleChild settle n i) c p fun _ c' p' => l.Opened c' p' k n count F := by
  obtain ⟨cs, rfl, ho⟩ := h
  have hchild := (Makes.lift (child_makes (l := l) (k := k) (n := n) hi)).agree c p F ho
  have hsettle (d : NodeId) := (hset i (k.wants i) d).frame ({.cell k n (cs.set i d)} + treesBut k 0 i cs) rfl
  have hown {d c' p'} (h : l.Owns c' p' ({.cell k n (cs.set i d)} + ({.tree (k.wants i) d} + treesBut k 0 i cs) + F)) :
      l.Owns c' p' ({.tree (k.wants i) d} + ({.cell k n (cs.set i d)} + treesBut k 0 i cs) + F) := by
    refine l.of_eq h ?_
    abel
  refine bind_both hchild fun d c₁ p₁ h₁ => bind_both (hsettle d c₁ p₁ F (hown h₁)) fun d' c₂ p₂ h₂ => ⟨rfl, ?_⟩
  split
  · have h₃ : l.Owns c₂ p₂ ({.cell k n (cs.set i d)} + {.tree (k.wants i) d'} + (treesBut k 0 i cs + F)) := by
      refine l.of_eq h₂ ?_
      beta_reduce
      abel
    refine .lift ((setChild_deals c₂ p₂ _ h₃).mono fun _ p₃ h₄ => opened_set d' hi ?_)
    rw [List.set_set] at h₄
    refine l.of_eq h₄ ?_
    beta_reduce
    abel
  · rename_i heq
    obtain rfl := not_ne_iff.mp heq
    refine .pure (opened_set d' hi ?_)
    refine l.of_eq h₂ ?_
    beta_reduce
    abel

theorem Opened.turns {j : Nat} (h : l.Opened c p k n count F) (hcount : i + j = count) :
    (List.range' i j).forM (settleChild settle n) c p = (List.range' i j).forM (settleChild settle' n) c p ∧
    EndsIn ((List.range' i j).forM (settleChild settle n)) c p fun _ c' p' => l.Opened c' p' k n count F := by
  induction j generalizing i c p with
  | zero => exact ⟨rfl, .pure h⟩
  | succ j ih =>
    rw [List.range'_succ, List.forM, List.forM]
    exact bind_both (h.turn hset (by omega)) fun _ _ _ h₁ => ih h₁ (by omega)

theorem children_agree : l.Agree {.tree ρ n} (do (List.range (← children n).length).forM (settleChild settle n))
    (do (List.range (← children n).length).forM (settleChild settle' n)) fun _ => {.tree ρ n} := by
  intro c p F ho
  have hends : EndsIn (liftM (children n) : RuleM (List NodeId)) c p fun ds c' p' => c' = c ∧ p' = p ∧ ∃ k, p.At n k ds :=
    .lift (children_ends.mono fun ds p' ⟨hp, r, hr, hds⟩ => ⟨rfl, hp, r.op.kind, r, hr, rfl, hds.symm⟩)
  have hopened {ds k} (hat : p.At n k ds) : l.Opened c p k n ds.length F := ⟨ds, rfl, by
    rw [add_assoc]
    exact l.opens ho hat.known⟩
  refine bind_both ⟨rfl, hends⟩ ?_
  rintro ds _ _ ⟨rfl, rfl, k, hat⟩
  rw [List.range_eq_range']
  refine ((hopened hat).turns hset (Nat.zero_add _)).imp_right fun hturns => hturns.mono fun _ _ p' h => ?_
  exact l.retag (l.symm (l.same (l.shows ho) hat)) h.closes

end Children

theorem Ended.owns {c' : Context} {p' : Plan} {out : Option NodeId} (hl : l.Free) (ho : l.Owns c p ({.tree ρ n} + F))
    (h : l.Ended (some p) c ρ F out c' p') : l.Owns c' p' ({.tree ρ (out.getD n)} + F) := by
  cases out with
  | none =>
    obtain ⟨_, _, ⟨⟩, hu⟩ := h
    exact hl (l.adds hu.adds ho)
  | some m => exact h

theorem tryRules_agree (hl : l.Free) {settle settle' : NodeId → RuleM NodeId} (hset : l.Settles settle settle')
    {rules rules' : List Rule} (hrules : List.Forall₂ l.Concurs rules rules') :
    l.Agree {.tree ρ n} (tryRules settle n rules) (tryRules settle' n rules') fun out => {.tree ρ (out.getD n)} := by
  induction hrules with
  | nil => exact .pure rfl
  | @cons rule rule' rules rules' hrule hrules ih =>
    have hgives {m : NodeId} : l.Agree {.tree ρ m} (do record rule m; return some m) (do record rule' m; return some m)
        fun out => {.tree ρ (out.getD n)} := by
      rw [show record rule' m = record rule m by simp only [record, hrule.name]]
      exact .bind (record_agree hl) fun _ => .pure rfl
    rw [tryRules, tryRules]
    refine .getPlan fun c p F ho => ?_
    rw [hrule.name, hrule.pattern]
    cases hm : rule.pattern.holds p n with
    | false => exact ih c p F ho
    | true =>
      refine bind_both (R := fun _ c' p' => p' = p ∧ l.Owns c' p ({.tree ρ n} + F)) ⟨rfl, .modify ⟨rfl, hl ho⟩⟩ fun _ c₁ p₁ ⟨hp, ho₁⟩ => ?_
      subst hp
      refine bind_both (hrule.apply hset hm c₁ p₁ F (.refl p₁) ho₁) fun out c₂ p₂ hout => ?_
      cases out with
      | none => exact ih c₂ p₂ F (hout.owns hl ho₁)
      | some m => exact hgives c₂ p₂ F hout

theorem forKind_concur {table table' : RuleTable} (h : List.Forall₂ l.Concurs table table') (k : OpKind) :
    List.Forall₂ l.Concurs (table.forKind k) (table'.forKind k) := by
  refine List.rel_filter (fun rule rule' hrule => ?_) h
  beta_reduce
  rw [hrule.pattern]

/-- Runs of the engine in a ledger. -/
def logic (hl : l.Free) : Logic where
  Ok n x y g := ∀ ρ, l.Agree {.tree ρ n} x y fun a => {.tree ρ (g a)}
  pure h ρ := .pure (by rw [h])
  throw _ := MakesIn.throw.agree
  bind hx hf ρ := .bind (hx ρ) fun a => hf a ρ
  get hf ρ := .get fun c => hf c ρ
  look hx hf ρ := .quiet (.plan hx) fun a => hf a ρ
  modify _ _ := hl.modify
  catchUp _ := catchUp_agree
  refresh _ := refresh_agree

theorem settle_agree (hl : l.Free) {table table' : RuleTable} (htable : List.Forall₂ l.Concurs table table') {fuel : Nat}
    {seen : List SubtreeKey} {place : Option (NodeId × Nat)} :
    l.Agree {.tree ρ n} (settle table fuel seen n place) (settle table' fuel seen n place) fun m => {.tree ρ m} :=
  (logic hl).settle table table' (fun hset _ _ => children_agree fun i ρ m => hset i m ρ)
    (fun hset _ k _ => tryRules_agree hl (fun ρ m => hset m ρ) (forKind_concur htable k)) fuel seen n place ρ

theorem pass_ends (hl : l.Free) {fuel : Nat} {options : Options} {group : RuleGroup} (ho : l.Owns c p {.tree ρ p.root}) :
    Ends (pass fuel options group) p fun _ p' => l.Owns c p' {.tree ρ p'.root} := by
  have htable : List.Forall₂ l.Concurs (group.enabledRules options.disabledRules) (group.enabledRules options.disabledRules) :=
    List.forall₂_same.mpr fun rule hr => rules_concur group rule (List.mem_filter.mp hr).1
  rw [← add_zero {_}] at ho
  refine (pass_ends_of (R := fun root c' p' => l.Owns c' p' ({.tree ρ root} + 0)) (fun _ _ => hl ho) fun _ _ =>
    (settle_agree hl htable _ p 0 (hl ho)).2).mono ?_
  rintro _ _ ⟨-, root, c', p₁, -, h, -, rfl⟩
  have hroot : Adds p₁ { p₁ with root } := ⟨Nat.le_refl _, fun _ r hr => ⟨r, hr, rfl, rfl⟩⟩
  exact hl (l.adds hroot (l.of_eq h (add_zero _)))

end Planwright.Ledger
