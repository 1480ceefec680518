import Planwright.Proofs.Ledger.Step
import Planwright.Proofs.Rule.Remake.Project

/-! Rules on projections and distincts, in any ledger. -/

namespace Planwright.Ledger

open Run Plan Asset Rules RuleM

variable {l : Ledger} {p : Plan} {n : NodeId} {cs ds : List NodeId}

/-! ### Definitions that are dropped -/

section Drop
variable {standIn? : NodeId → PlanM (Option VarId)} {hide : VarSet → VarId → VarId → VarSet} {outputs : VarSet}

theorem dropDefs_agree (hlook : ∀ d, Looks (standIn? d)) :
    l.DealsIn (all .varDef ds) (dropDefs standIn? hide outputs ds) fun out => all .varDef out.2.1 := by
  induction ds generalizing outputs with
  | nil => exact .pure rfl
  | cons d ds ih =>
    refine .quiet (.plan (hlook d)) fun w => ?_
    split
    · exact .step ih (definition d) (by rw [all_cons, add_comm]) fun out => .pure (by rw [all_cons, add_comm])
    · refine .quiet (.plan definedVar_looks) fun v => .bind rename_agree fun _ => ?_
      exact (yields_of_le (all_cons ▸ le_add_self)).agree (.bind ih fun out => .pure rfl)

theorem dropDefs_still (hlook : ∀ d, Looks (standIn? d)) (c : Context) (p : Plan) :
    EndsIn (dropDefs standIn? hide outputs ds) c p fun out c' p' => out.2.2 = false → c' = c ∧ Unchanged p p' := by
  induction ds generalizing c p outputs with
  | nil => exact .pure fun _ => ⟨rfl, .refl p⟩
  | cons d ds ih =>
    refine .step (hlook d p).ends fun w p₁ h₁ => ?_
    split
    · exact .bind (ih c p₁) fun out c₁ p₂ h => .pure fun hout => (h hout).imp_right h₁.unchanged.trans
    · exact .bind (R := fun _ _ _ => True) (fun _ _ _ _ => trivial) fun _ c₁ p₁ _ =>
        .bind (R := fun _ _ _ => True) (fun _ _ _ _ => trivial) fun _ c₁ p₁ _ => .bind (ih c₁ p₁) fun _ _ _ _ => .pure (by simp)

end Drop

/-! ### Rules -/

section Rules
variable {x m : NodeId}

theorem opens_project {b : RuleM (Option NodeId)} (hn : p.At n .project [x, m]) (hm : p.At m .varDefList ds)
    (h : l.Concur (some p) (all .varDef ds + (relation x + ({.cell .project n [x, m]} + {.cell .varDefList m ds})))
      .relational b b) : l.Concur (some p) (relation n) .relational b b := by
  refine .opensTwo .relational .varDefList hn 0 (add_zero _).symm ?_ rfl rfl
  refine .opensAll .varDef (fun _ => rfl) hm ({.cell .project n [x, m]} + relation x) (by abel) ?_
  convert h using 1
  abel

theorem projectWithoutDefs_concurs (hn : p.At n .project [x, m]) (hm : p.At m .varDefList ds) :
    l.Works (some p) (relation n) .relational (projectWithoutDefs n) := by
  refine .readChild hn (i := 1) rfl (.readChildren hm ?_)
  split
  · exact .readChild hn (i := 0) rfl (.givesChild (i := 0) hn rfl)
  · exact .leaves

theorem dropFrom_concurs (hn : p.At n .project [x, m]) (hm : p.At m .varDefList ds) {standIn? : NodeId → PlanM (Option VarId)}
    {hide : VarSet → VarId → VarId → VarSet} (hlook : ∀ d, Looks (standIn? d)) :
    l.Works (some p) (relation n) .relational (dropFrom n x ds standIn? hide) := by
  refine .look op_looks fun o => ?_
  split
  · refine opens_project hn hm (.unless (dropDefs_agree hlook) _ rfl (dropDefs_still hlook) (fun out hout => ?_) fun out hout => ?_)
    · simp only [Bool.not_eq_false] at hout
      simp only [hout]
      exact .make varDefList_makes _ rfl fun m => .make project_makes _ (by rw [add_left_comm, ← add_assoc]) fun n => .gives _ rfl
    · simp only [hout]
      exact .leaves
  · exact .throw

theorem projectReferences_concurs (hn : p.At n .project [x, m]) (hm : p.At m .varDefList ds) :
    l.Works (some p) (relation n) .relational (projectReferences n) := by
  refine .readChild hn (i := 0) rfl (.look relationInfo_looks fun i => .readChild hn (i := 1) rfl (.readChildren hm ?_))
  exact dropFrom_concurs hn hm fun d => plainReference?_looks

theorem projectSentinels_concurs (hn : p.At n .project [x, m]) (hm : p.At m .varDefList ds) :
    l.Works (some p) (relation n) .relational (projectSentinels n) := by
  refine .readChild hn (i := 1) rfl (.readChildren hm ?_)
  refine .quiet (.anyM fun d => .bind (.plan child_looks) fun _ => .bind (.plan kind_looks) fun _ => .pure) fun any => ?_
  split
  · exact .leaves
  refine .quiet canChangeSentinel_quiet fun may => ?_
  split
  · exact .leaves
  refine .readChild hn (i := 0) rfl (.look relationInfo_looks fun i => .getPlan fun q => ?_)
  dsimp only
  split
  · exact dropFrom_concurs hn hm fun d => sentinel?_looks
  · refine .look constantVars_looks fun vs => ?_
    split
    · exact dropFrom_concurs hn hm fun d => sentinel?_looks
    · exact .leaves

theorem distinctOfKeys_concurs (hn : p.At n .distinct [x]) :
    l.Works (some p) (relation n) .relational (distinctOfKeys n) := by
  refine .readChild hn (i := 0) rfl (.look relationInfo_looks fun i => .look op_looks fun o => ?_)
  split
  · split
    · exact .leaves
    · split
      · exact .leaves
      · refine .opensOne .relational hn 0 (add_zero _).symm ?_ rfl
        refine .make varDefList_makes ({.cell .distinct n [x]} + relation x) (by rw [all_nil]; abel) fun list => ?_
        exact .make project_makes {.cell .distinct n [x]} (by abel) fun out => .gives _ rfl
  · exact .throw

theorem redefine_deals {s : Substitution} (d : NodeId) : l.Deals (exprs s + definition d) (redefine s d) fun d' =>
    exprs s + definition d' := by
  refine .bind (expr_makes.frame (exprs s) (add_comm _ _)).deals fun e => ?_
  rw [add_comm]
  refine .bind substitute_deals fun e' => .quiet definedVar_looks fun v => ?_
  exact ((varDef_makes.frame (exprs s) (add_comm _ _)).mono fun _ => (add_comm _ _).le).deals

theorem projectOverProject_concurs {input defs : NodeId} (hn : p.At n .project [x, m]) (hx : p.At x .project [input, defs]) :
    l.Works (some p) (relation n) .relational (projectOverProjectApply n) := by
  refine .readChild hn (i := 0) rfl (.look op_looks fun o => ?_)
  split
  · refine .readChild hn (i := 1) rfl (.opensTwo .relational .varDefList hn 0 (add_zero _).symm ?_ rfl rfl)
    refine .make defs_makes ({.cell .project n [x, m]} + relation x) (by abel) fun outer => ?_
    refine .look scalarReferences_looks fun refs => ?_
    split
    · refine .readChild hx (i := 1) rfl ?_
      refine .opensTwo .relational .varDefList hx ({.cell .project n [x, m]} + all .varDef outer) (by abel) ?_ rfl rfl
      refine .sees .varDefList defs ({.cell .project x [input, defs]} + relation input + ({.cell .project n [x, m]} + all .varDef outer))
        (by abel) (.step substitution?_makes _ rfl ?_)
      rintro (_ | s)
      · exact .leaves
      · refine .change (.mapM fun d => (redefine_deals d).agree) (defList defs + ({.cell .project x [input, defs]} +
          relation input) + {.cell .project n [x, m]}) (by simp only [collected]; abel) fun moved => ?_
        refine .drop (defList defs + ({.cell .project x [input, defs]} + relation input + all .varDef moved))
          (exprs s + {.cell .project n [x, m]}) (by abel) ?_
        refine .make defs_makes _ rfl fun inner => ?_
        refine .step (filterM_makes fun d => .bind (.plan definedVar_looks) fun _ => .pure) _ rfl fun kept => ?_
        refine .make varDefList_makes ({.cell .project x [input, defs]} + relation input) ?_ fun list => ?_
        · rw [all_append]
          abel
        · refine .make (child_tree (i := 0) rfl rfl) (defList list) (add_comm _ _) fun input' => ?_
          exact .make project_makes 0 (add_zero _).symm fun out => .gives 0 rfl
    · exact .leaves
  · exact .throw

theorem projectRules_concur : ∀ rule ∈ projectRules, l.Concurs rule rule := by
  have listed {name : String} {f : NodeId → RuleM (Option NodeId)} (hf : ∀ {p n x m ds}, p.At n .project [x, m] →
      p.At m .varDefList ds → l.Works (some p) (relation n) .relational (f n)) :
      l.Concurs (.simple name projectPattern f) (.simple name projectPattern f) :=
    concurs_simple fun p n hm => by
      obtain ⟨x, m, hn, -, hm⟩ := Pattern.holds_two hm
      obtain ⟨ds, hm⟩ := Pattern.holds_ofKind hm
      exact hf hn hm
  simp only [projectRules, List.forall_mem_cons]
  refine ⟨concurs_simple fun p n hm => ?_, listed projectWithoutDefs_concurs, listed projectReferences_concurs,
    listed projectSentinels_concurs, List.forall_mem_nil _⟩
  obtain ⟨x, m, hn, hx, -⟩ := Pattern.holds_two hm
  obtain ⟨input, defs, hx, -⟩ := Pattern.holds_two hx
  exact projectOverProject_concurs hn hx

theorem distinctRules_concur : ∀ rule ∈ distinctRules, l.Concurs rule rule := by
  simp only [distinctRules, List.forall_mem_cons]
  refine ⟨concurs_simple fun p n hm => ?_, List.forall_mem_nil _⟩
  obtain ⟨x, hn, -⟩ := Pattern.holds_one hm
  exact distinctOfKeys_concurs hn

end Rules

end Planwright.Ledger
