import Planwright.Engine.Pass
import Planwright.Proofs.Plan.Same

/-! The course of a run. Between the rules a run enters and leaves nodes, keeps a record of what is settled and puts what has
    become of a node in its place. A logic that knows these steps, and what rules do, knows what settling does. -/

namespace Planwright.Engine

open Run Plan

/-- What is kept for the rules of a run is not written. -/
structure SameNotes (c c' : Context) : Prop where
  mappings : c'.mappings = c.mappings
  steps : c'.steps = c.steps
  stats : c'.stats = c.stats
  pruning : c'.pruningRequired = c.pruningRequired
  nullability : c'.nullabilityRequired = c.nullabilityRequired

/-- A way to speak of two runs that start at a node, and of the node where they leave off. -/
structure Logic where
  Ok {α : Type} : NodeId → RuleM α → RuleM α → (α → NodeId) → Prop
  pure {α n g} {a : α} : g a = n → Ok n (pure a) (pure a) g
  throw {α n e} {g : α → NodeId} : Ok n (throw e) (throw e) g
  bind {α β n x x' f f'} {g : α → NodeId} {h : β → NodeId} : Ok n x x' g → (∀ a, Ok (g a) (f a) (f' a) h) →
    Ok n (x >>= f) (x' >>= f') h
  get {β n f f'} {h : β → NodeId} : (∀ c, Ok n (f c) (f' c) h) → Ok n (get >>= f) (get >>= f') h
  look {α β n f f'} {x : PlanM α} {h : β → NodeId} : Looks x → (∀ a, Ok n (f a) (f' a) h) → Ok n (liftM x >>= f) (liftM x >>= f') h
  modify {n f} : (∀ c, SameNotes c (f c)) → Ok n (modify f) (modify f) fun _ => n
  catchUp {n} : Ok n (catchUp n) (catchUp n) fun _ => n
  refresh {n} : Ok n (refresh n) (refresh n) fun _ => n

namespace Logic

variable {L : Logic} {n : NodeId} {place : Option (NodeId × Nat)}

theorem ite {α : Type} {P : Prop} [Decidable P] {x x' y y' : RuleM α} {g : α → NodeId} (hx : L.Ok n x x' g) (hy : L.Ok n y y' g) :
    L.Ok n (if P then x else y) (if P then x' else y') g := by
  split
  · exact hx
  · exact hy

theorem seq {α β γ : Type} {x x' : RuleM α} {f f' : α → RuleM β} {k k' : β → RuleM γ} {g : β → NodeId} {h : γ → NodeId}
    (hx : L.Ok n (x >>= f) (x' >>= f') g) (hk : ∀ b, L.Ok (g b) (k b) (k' b) h) :
    L.Ok n (x >>= fun a => f a >>= k) (x' >>= fun a => f' a >>= k') h := by
  rw [← bind_assoc, ← bind_assoc]
  exact L.bind hx hk

theorem forM {γ : Type} {f f' : γ → RuleM PUnit} (hf : ∀ a, L.Ok n (f a) (f' a) fun _ => n) (as : List γ) :
    L.Ok n (as.forM f) (as.forM f') fun _ => n := by
  induction as with
  | nil => exact L.pure rfl
  | cons a as ih => exact L.bind (hf a) fun _ => ih

theorem enter : L.Ok n (enter n) (enter n) fun _ => n := by
  refine L.look kind_looks fun k => ?_
  split
  · exact L.bind (L.modify fun _ => ⟨rfl, rfl, rfl, rfl, rfl⟩) fun _ => L.catchUp
  · exact L.catchUp

theorem leave {m : NodeId} : L.Ok m (leave n) (leave n) fun _ => m := by
  refine L.look kind_looks fun k => ?_
  split
  · refine L.get fun c => ?_
    split
    · exact L.throw
    · split
      · exact L.bind (g := fun _ => m) L.throw fun _ => L.modify fun _ => ⟨rfl, rfl, rfl, rfl, rfl⟩
      · exact L.modify fun _ => ⟨rfl, rfl, rfl, rfl, rfl⟩
  · exact L.pure rfl

theorem keyOf : L.Ok n (keyOf n place) (keyOf n place) fun _ => n := L.look info_looks fun _ => L.pure rfl

theorem markSettled {k : SubtreeKey} : L.Ok n (markSettled k) (markSettled k) fun _ => n :=
  L.modify fun _ => ⟨rfl, rfl, rfl, rfl, rfl⟩

theorem stop : L.Ok n (do Engine.leave n; return n) (do Engine.leave n; return n) id := L.bind leave fun _ => L.pure rfl

def Settles (L : Logic) (settle settle' : NodeId → RuleM NodeId) : Prop := ∀ m, L.Ok m (settle m) (settle' m) id

theorem children {settle settle' : Nat → NodeId → RuleM NodeId}
    (h : ∀ i, L.Ok n (settleChild settle n i) (settleChild settle' n i) fun _ => n) : L.Ok n
      (do (List.range (← Plan.children n).length).forM (settleChild settle n))
      (do (List.range (← Plan.children n).length).forM (settleChild settle' n)) fun _ => n :=
  L.look children_looks fun _ => forM h _

theorem settle (L : Logic) (table table' : RuleTable)
    (hchildren : ∀ {settle settle'}, (∀ i, L.Settles (settle i) (settle' i)) → ∀ n, L.Ok n
      (do (List.range (← Plan.children n).length).forM (settleChild settle n))
      (do (List.range (← Plan.children n).length).forM (settleChild settle' n)) fun _ => n)
    (hrules : ∀ {settle settle'}, L.Settles settle settle' → ∀ n k, L.Ok n (tryRules settle n (table.forKind k))
      (tryRules settle' n (table'.forKind k)) fun out => out.getD n)
    (fuel : Nat) (seen : List SubtreeKey) (n : NodeId) (place : Option (NodeId × Nat)) :
    L.Ok n (settle table fuel seen n place) (Engine.settle table' fuel seen n place) id := by
  induction fuel generalizing seen n place with
  | zero => exact L.throw
  | succ fuel ih =>
    refine L.bind enter fun _ => L.bind keyOf fun key => L.get fun c => ite stop (ite (L.bind markSettled fun _ => stop) ?_)
    refine seq (hchildren (fun i m => ih [] m (some (n, i))) n) fun _ => L.bind L.refresh fun _ => L.look kind_looks fun k => ?_
    refine L.bind (hrules (fun m => ih [] m none) n k) fun out => ?_
    cases out with
    | none => exact L.bind keyOf fun _ => L.bind markSettled fun _ => stop
    | some out => exact L.bind leave fun _ => ih _ _ _

end Logic

/-- What a pass tells of where its run ended. -/
def report (c : Context) (log : List String) : Outcome :=
  ⟨c.steps > 0, { c.stats with
    steps := c.steps, pruningRequired := c.pruningRequired, nullabilityRequired := c.nullabilityRequired }, log⟩

theorem pass_ends_of {fuel : Nat} {options : Options} {group : RuleGroup} {p : Plan} {R : NodeId → Context → Plan → Prop}
    (hstart : ∀ stats : Stats, stats.rules = [] → R p.root { Context.start options with stats } p)
    (hrun : ∀ stats : Stats, stats.rules = [] →
      EndsIn (settle (group.enabledRules options.disabledRules) fuel [] p.root none) { Context.start options with stats } p R) :
    Ends (pass fuel options group) p fun out p' =>
      (∃ t, p.tree? p.root = some t) ∧ ∃ root c p₁ log, R root c p₁ ∧ out = report c log ∧ p' = { p₁ with root } := by
  refine .get (.bind tree_ends fun t p₁ ⟨hp, ht⟩ => ?_)
  subst hp
  dsimp only
  split
  · exact .pure ⟨⟨t, ht⟩, p₁.root, _, p₁, _, hstart { Stats.empty with group := group.name, nodeCount := t.size, skipped := true } rfl, rfl, rfl⟩
  · refine .bind (R := fun out p' => R out.1 out.2 p') (fun out p' h => hrun _ rfl out.1 out.2 p' h) fun out p₂ h₂ => ?_
    exact .bind (R := fun _ p' => p' = { p₂ with root := out.1 }) (.modify rfl) fun _ _ hp => .pure ⟨⟨t, ht⟩, _, _, _, _, h₂, rfl, hp⟩

end Planwright.Engine
