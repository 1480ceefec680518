import Mathlib.Data.Prod.Lex
import Planwright.Proofs.Tree.Outline

/-! Descent. A tree may take the place of another when it weighs less, or when nothing above it can tell that it does not
    and the other measures have not grown. This is kept by all operators above the place, and there is no endless
    descent. -/

namespace Planwright.Outline

variable {a a' b b' d : Outline} {cs : List Outline} {i : Nat}

section Pressure
variable {a b k l : Nat}

theorem pressure_add (r k l : Nat) : pressure r (k + l) = pressure r k + pressure r l := by
  rw [pressure, Finsupp.single_add]
  rfl

theorem pressure_zero (r : Nat) : pressure r 0 = 0 := by
  rw [pressure, Finsupp.single_zero]
  rfl

theorem lt_pressure {x : Load} (hx : ∀ i, a ≤ i → ofColex x i = 0) : x < pressure a (k + 1) := by
  refine Finsupp.Colex.lt_iff.mpr ⟨a, fun j hj => ?_, ?_⟩
  · rw [hx j hj.le, pressure, ofColex_toColex, Finsupp.single_eq_of_ne hj.ne']
  · rw [hx a le_rfl, pressure, ofColex_toColex, Finsupp.single_eq_same]
    exact Nat.succ_pos k

theorem ofColex_pressure_of_lt (h : a < b) : ∀ i, b ≤ i → ofColex (pressure a k) i = 0 := fun i hi => by
  rw [pressure, ofColex_toColex, Finsupp.single_eq_of_ne (by omega)]

theorem pressure_lt_of_lt (h : a < b) (k l : Nat) : pressure a k < pressure b (l + 1) := lt_pressure (ofColex_pressure_of_lt h)

theorem pressure_pos (r k : Nat) : 0 < pressure r (k + 1) := lt_pressure fun _ _ => rfl

theorem pressure_mono (h : a ≤ b) (hk : k ≤ l) : pressure a k ≤ pressure b l := by
  rcases Nat.eq_or_lt_of_le h with rfl | hlt
  · obtain ⟨d, rfl⟩ := Nat.exists_eq_add_of_le hk
    rw [pressure_add]
    exact le_add_of_nonneg_right bot_le
  · cases k with
    | zero => exact (pressure_zero a).trans_le bot_le
    | succ k =>
      obtain ⟨m, rfl⟩ : ∃ m, l = m + 1 := ⟨l - 1, by omega⟩
      exact (pressure_lt_of_lt hlt _ _).le

end Pressure

/-! ### The order -/

/-- What is compared between trees of one weight. -/
noncomputable def rest (a : Outline) : Load ×ₗ ℕ ×ₗ ℕ := toLex (a.load, toLex (a.lift, a.extent))

/-- What is compared between all trees. -/
noncomputable def rank (a : Outline) : ℕ ×ₗ Load ×ₗ ℕ ×ₗ ℕ := toLex (a.weight, a.rest)

theorem rest_lt : b.rest < a.rest ↔ b.load < a.load ∨ b.load = a.load ∧
    (b.lift < a.lift ∨ b.lift = a.lift ∧ b.extent < a.extent) := by
  simp only [rest, Prod.Lex.toLex_lt_toLex]

theorem rest_lt_of_le (hload : b.load ≤ a.load) (hlift : b.lift ≤ a.lift) (hext : b.extent < a.extent) :
    b.rest < a.rest := by
  rw [rest_lt]
  rcases hload.lt_or_eq with hload | hload
  · exact .inl hload
  · exact .inr ⟨hload, hlift.lt_or_eq.imp_right fun h => ⟨h, hext⟩⟩

theorem rest_lt_of_lift (hload : b.load ≤ a.load) (hlift : b.lift < a.lift) : b.rest < a.rest :=
  rest_lt.mpr (hload.lt_or_eq.imp_right fun h => ⟨h, .inl hlift⟩)

theorem rest_lt_of_load (hload : b.load < a.load) : b.rest < a.rest := rest_lt.mpr (.inl hload)

/-- What stands above cannot tell the second from the first, or only finds it better. -/
structure Eases (a b : Outline) : Prop where
  isRow : b.isRow = a.isRow
  reach : b.reach ≤ a.reach
  hoist : b.hoist ≤ a.hoist
  bulk : b.bulk ≤ a.bulk
  isSlim : a.isSlim = true → b.isSlim = true
  isLone : a.isLone = true → b.isLone = true

theorem Eases.refl (a : Outline) : Eases a a := ⟨rfl, le_rfl, le_rfl, le_rfl, fun h => h, fun h => h⟩

theorem Eases.trans {c : Outline} (h : Eases a b) (h' : Eases b c) : Eases a c where
  isRow := h'.isRow.trans h.isRow
  reach := h'.reach.trans h.reach
  hoist := h'.hoist.trans h.hoist
  bulk := h'.bulk.trans h.bulk
  isSlim hs := h'.isSlim (h.isSlim hs)
  isLone hl := h'.isLone (h.isLone hl)

theorem Eases.projectCost (h : Eases a b) : b.projectCost ≤ a.projectCost := by
  have := h.isLone
  unfold Outline.projectCost
  split <;> split <;> simp_all

/-- The second may take the place of the first. -/
def Sinks (a b : Outline) : Prop := b.weight < a.weight ∨ b.weight = a.weight ∧ Eases a b ∧ b.rest ≤ a.rest

/-- The second may take the place of the first and comes after it in all descents. -/
def Falls (a b : Outline) : Prop := b.weight < a.weight ∨ b.weight = a.weight ∧ Eases a b ∧ b.rest < a.rest

section Order
variable {a b c : Outline}

theorem Sinks.refl (a : Outline) : Sinks a a := .inr ⟨rfl, .refl a, le_rfl⟩

theorem Falls.sinks (h : Falls a b) : Sinks a b := h.imp_right fun ⟨hw, he, hr⟩ => ⟨hw, he, hr.le⟩

theorem descend {P Q R : Prop} (h : b.weight < a.weight ∨ b.weight = a.weight ∧ Eases a b ∧ P)
    (h' : c.weight < b.weight ∨ c.weight = b.weight ∧ Eases b c ∧ Q) (hrest : P → Q → R) :
    c.weight < a.weight ∨ c.weight = a.weight ∧ Eases a c ∧ R := by
  rcases h with h | ⟨hw, he, hr⟩ <;> rcases h' with h' | ⟨hw', he', hr'⟩
  · exact .inl (h'.trans h)
  · exact .inl (hw'.trans_lt h)
  · exact .inl (h'.trans_eq hw)
  · exact .inr ⟨hw'.trans hw, he.trans he', hrest hr hr'⟩

theorem Sinks.trans (h : Sinks a b) (h' : Sinks b c) : Sinks a c := descend h h' fun hr hr' => hr'.trans hr

theorem Sinks.falls (h : Sinks a b) (h' : Falls b c) : Falls a c := descend h h' fun hr hr' => hr'.trans_le hr

theorem Falls.sinking (h : Falls a b) (h' : Sinks b c) : Falls a c := descend h h' fun hr hr' => hr'.trans_lt hr

theorem Falls.rank_lt (h : Falls a b) : b.rank < a.rank := by
  rw [rank, rank, Prod.Lex.toLex_lt_toLex]
  exact h.imp_right fun ⟨hw, _, hr⟩ => ⟨hw, hr⟩

theorem Sinks.rank_le (h : Sinks a b) : b.rank ≤ a.rank := by
  rw [rank, rank, Prod.Lex.toLex_le_toLex]
  exact h.imp_right fun ⟨hw, _, hr⟩ => ⟨hw, hr⟩

end Order

/-! ### Below other operators -/

/-- The measures of two trees, with the same around them but for what got no larger. -/
structure Framed (a b a' b' : Outline) : Prop where
  load : ∃ r r', a'.load = a.load + r ∧ b'.load = b.load + r' ∧ r' ≤ r
  lift : ∃ k r r', 0 < k ∧ a'.lift = k * a.lift + r ∧ b'.lift = k * b.lift + r' ∧ r' ≤ r
  extent : ∃ k r, 0 < k ∧ 0 < r ∧ a'.extent = k * a.extent + r ∧ b'.extent = k * b.extent + r

theorem Framed.rest_lt (h : Framed a b a' b') (hlt : b.rest < a.rest) : b'.rest < a'.rest := by
  obtain ⟨r, r', hr, hr', hle⟩ := h.load
  obtain ⟨k, s, s', hk, hs, hs', hsle⟩ := h.lift
  obtain ⟨l, u, hl, -, hu, hu'⟩ := h.extent
  rcases Outline.rest_lt.mp hlt with hload | ⟨hload, hlift | ⟨hlift, hext⟩⟩
  · refine rest_lt_of_load ?_
    rw [hr, hr']
    exact add_lt_add_of_lt_of_le hload hle
  · refine rest_lt_of_lift ?_ ?_
    · rw [hr, hr', hload]
      exact add_le_add_right hle _
    · have := Nat.mul_lt_mul_of_pos_left hlift hk
      omega
  · refine rest_lt_of_le ?_ ?_ ?_
    · rw [hr, hr', hload]
      exact add_le_add_right hle _
    · rw [hs, hs', hlift]
      omega
    · have := Nat.mul_lt_mul_of_pos_left hext hl
      omega

theorem Framed.rest_le (h : Framed a b a' b') (hle : b.rest ≤ a.rest) : b'.rest ≤ a'.rest := by
  rcases hle.lt_or_eq with hlt | heq
  · exact (h.rest_lt hlt).le
  · obtain ⟨r, r', hr, hr', hle⟩ := h.load
    obtain ⟨k, s, s', hk, hs, hs', hsle⟩ := h.lift
    obtain ⟨l, u, hl, -, hu, hu'⟩ := h.extent
    simp only [rest, EmbeddingLike.apply_eq_iff_eq, Prod.mk.injEq] at heq
    obtain ⟨hload, hlift, hext⟩ := heq
    have hload' : b'.load ≤ a'.load := by
      rw [hr, hr', hload]
      exact add_le_add_right hle _
    rw [rest, rest, Prod.Lex.toLex_le_toLex, Prod.Lex.toLex_le_toLex]
    refine hload'.lt_or_eq.imp_right fun h => ⟨h, ?_⟩
    rw [hs, hs', hu, hu', hlift, hext]
    omega

theorem sum_map_set {M : Type} [AddCommMonoid M] (f : Outline → M)
    (h : cs[i]? = some d) (d' : Outline) : ∃ r, (cs.map f).sum = f d + r ∧ ((cs.set i d').map f).sum = f d' + r := by
  induction cs generalizing i with
  | nil => cases h
  | cons c cs ih =>
    cases i with
    | zero =>
      cases h
      exact ⟨(cs.map f).sum, by simp, by simp⟩
    | succ i =>
      obtain ⟨r, hr, hr'⟩ := ih h
      refine ⟨f c + r, ?_, ?_⟩
      · rw [List.map_cons, List.sum_cons, hr, add_left_comm]
      · rw [List.set_cons_succ, List.map_cons, List.sum_cons, hr', add_left_comm]

theorem foldr_max_set {d' : Outline} (h : cs[i]? = some d) (hle : d'.reach ≤ d.reach) :
    ((cs.set i d').map reach).foldr max 0 ≤ (cs.map reach).foldr max 0 := by
  induction cs generalizing i with
  | nil => cases h
  | cons c cs ih =>
    cases i with
    | zero =>
      cases h
      simp only [List.set_cons_zero, List.map_cons, List.foldr_cons]
      omega
    | succ i =>
      have := ih h
      simp only [List.set_cons_succ, List.map_cons, List.foldr_cons]
      omega

section Set
variable {k : OpKind} {cs : List Outline} {i : Nat} {d d' : Outline}

theorem Plain.set (h : Plain k cs) : Plain k (cs.set i d') := by
  by_cases hlen : cs.length = 2
  · obtain ⟨x, y, rfl⟩ := List.length_eq_two.mp hlen
    exact plain_of_kind (h x y rfl)
  · exact plain_of_length (by simpa using hlen)

theorem bulk_set_le (hd : cs[i]? = some d) (h : d'.bulk ≤ d.bulk) : (node k (cs.set i d')).bulk ≤ (node k cs).bulk := by
  obtain ⟨r, hr, hr'⟩ := sum_map_set bulk hd d'
  rw [bulk, bulk]
  split <;> omega

theorem isSlim_set (hd : cs[i]? = some d) (h : d'.bulk ≤ d.bulk) (hs : (node k cs).isSlim) :
    (node k (cs.set i d')).isSlim := by
  unfold isSlim at hs ⊢
  split
  · rename_i heq
    cases heq
    simp only [List.all_eq_true, decide_eq_true_eq] at hs ⊢
    intro c hc
    rcases List.mem_or_eq_of_mem_set hc with hc | rfl
    · exact hs c hc
    · exact h.trans (hs d (List.mem_of_getElem? hd))
  · rfl

theorem isLone_set (hd : cs[i]? = some d) (h : d.isLone → d'.isLone) (hl : (node k cs).isLone) :
    (node k (cs.set i d')).isLone := by
  unfold isLone at hl
  split at hl
  · rename_i heq
    cases heq
    cases hd
  · rename_i e heq
    cases heq
    cases i with
    | zero =>
      cases hd
      exact h hl
    | succ i => cases hd
  · rename_i e heq
    cases heq
    cases i with
    | zero =>
      cases hd
      exact h hl
    | succ i => cases hd
  · rename_i heq
    cases heq
    rfl
  · rename_i heq
    cases heq
    rfl
  · cases hl

theorem weight_set (hd : cs[i]? = some d) (d' : Outline) : ∃ r, (node k cs).weight = d.weight + r ∧
    (node k (cs.set i d')).weight = d'.weight + r := by
  obtain ⟨r, hr, hr'⟩ := sum_map_set weight hd d'
  refine ⟨opWeight k + r, ?_, ?_⟩
  · rw [weight, hr]
    omega
  · rw [weight, hr']
    omega

theorem Eases.set (hd : cs[i]? = some d) (h : Eases d d') : Eases (node k cs) (node k (cs.set i d')) := by
  have hbulk := bulk_set_le (k := k) hd h.bulk
  have hslim := isSlim_set (k := k) hd h.bulk
  have hlone := isLone_set (k := k) hd h.isLone
  suffices (node k (cs.set i d')).isRow = (node k cs).isRow ∧ (node k (cs.set i d')).reach ≤ (node k cs).reach ∧
      (node k (cs.set i d')).hoist ≤ (node k cs).hoist from ⟨this.1, this.2.1, this.2.2, hbulk, hslim, hlone⟩
  clear hbulk hslim hlone
  rcases plain_or k cs with hp | ⟨x, y, rfl, hk⟩
  · rw [hp.isRow, hp.set.isRow, hp.hoist, hp.set.hoist, hp.reach, hp.set.reach]
    have := foldr_max_set hd h.reach
    refine ⟨rfl, ?_, le_rfl⟩
    split <;> omega
  · have hrow := h.isRow
    have hreach := h.reach
    have hhoist := h.hoist
    have hcost := h.projectCost
    have hslim := h.isSlim
    -- Each of the four operators has two children, and the new one is the first or the second of them.
    rcases i with _ | _ | i
    · cases hd
      rcases hk with rfl | rfl | rfl | rfl <;> simp [hrow] <;> omega
    · cases hd
      rcases hk with rfl | rfl | rfl | rfl <;> simp <;> try omega
      refine ⟨?_, hcost⟩
      split <;> split <;> simp_all
    · cases hd

theorem load_set (hd : cs[i]? = some d) (h : Eases d d') : ∃ r r', (node k cs).load = d.load + r ∧
    (node k (cs.set i d')).load = d'.load + r' ∧ r' ≤ r := by
  rcases plain_or k cs with hp | ⟨x, y, rfl, hk⟩
  · obtain ⟨r, hr, hr'⟩ := sum_map_set load hd d'
    exact ⟨r, r, hp.load.trans hr, hp.set.load.trans hr', le_rfl⟩
  · by_cases hf : k = .filter
    · subst hf
      rcases i with _ | _ | i
      · cases hd
        refine ⟨y.load + pressure d.reach (y.bulk + 2), y.load + pressure d'.reach (y.bulk + 2), ?_, ?_, ?_⟩
        · rw [load_filter, add_assoc]
        · rw [List.set_cons_zero, load_filter, add_assoc]
        · exact add_le_add_right (pressure_mono h.reach le_rfl) _
      · cases hd
        refine ⟨x.load + pressure x.reach (d.bulk + 2), x.load + pressure x.reach (d'.bulk + 2), ?_, ?_, ?_⟩
        · rw [load_filter, add_comm x.load, add_assoc]
        · rw [List.set_cons_succ, List.set_cons_zero, load_filter, add_comm x.load, add_assoc]
        · exact add_le_add_right (pressure_mono le_rfl (Nat.add_le_add_right h.bulk 2)) _
      · cases hd
    · obtain ⟨r, hr, hr'⟩ := sum_map_set load hd d'
      exact ⟨r, r, (load_node hf).trans hr, (load_node hf).trans hr', le_rfl⟩

theorem lift_set (hd : cs[i]? = some d) (h : Eases d d') : ∃ n r r', 0 < n ∧ (node k cs).lift = n * d.lift + r ∧
    (node k (cs.set i d')).lift = n * d'.lift + r' ∧ r' ≤ r := by
  rcases plain_or k cs with hp | ⟨x, y, rfl, hk⟩
  · obtain ⟨r, hr, hr'⟩ := sum_map_set lift hd d'
    refine ⟨1, r, r, Nat.one_pos, ?_, ?_, le_rfl⟩
    · rw [hp.lift, hr, Nat.one_mul]
    · rw [hp.set.lift, hr', Nat.one_mul]
  · have hcost := h.projectCost
    rcases i with _ | _ | i
    · cases hd
      rcases hk with rfl | rfl | rfl | rfl
      · exact ⟨1, y.lift, y.lift, by simp⟩
      · exact ⟨1, y.lift + y.projectCost, y.lift + y.projectCost, by simp [add_assoc]⟩
      · exact ⟨1, 4 * y.lift, 4 * y.lift, by simp⟩
      · exact ⟨1, 4 * y.lift, 4 * y.lift, by simp⟩
    · cases hd
      rcases hk with rfl | rfl | rfl | rfl
      · exact ⟨1, x.lift, x.lift, by simp [add_comm]⟩
      · refine ⟨1, x.lift + d.projectCost, x.lift + d'.projectCost, Nat.one_pos, ?_, ?_, by omega⟩
        · rw [lift_project]
          omega
        · rw [List.set_cons_succ, List.set_cons_zero, lift_project]
          omega
      · exact ⟨4, x.lift, x.lift, by simp [add_comm]⟩
      · exact ⟨4, x.lift, x.lift, by simp [add_comm]⟩
    · cases hd

theorem extent_set (hd : cs[i]? = some d) (d' : Outline) : ∃ n r, 0 < n ∧ 0 < r ∧ (node k cs).extent = n * d.extent + r ∧
    (node k (cs.set i d')).extent = n * d'.extent + r := by
  obtain ⟨r, hr, hr'⟩ := sum_map_set extent hd d'
  by_cases hf : ∃ x y, k = .filter ∧ cs = [x, y]
  · obtain ⟨x, y, rfl, rfl⟩ := hf
    rcases i with _ | _ | i
    · cases hd
      exact ⟨2, y.extent + 1, by simp [add_assoc]⟩
    · cases hd
      refine ⟨1, 2 * x.extent + 1, Nat.one_pos, Nat.succ_pos _, ?_, ?_⟩
      · rw [extent_filter]
        omega
      · rw [List.set_cons_succ, List.set_cons_zero, extent_filter]
        omega
    · cases hd
  · refine ⟨1, r + 1, Nat.one_pos, Nat.succ_pos _, ?_, ?_⟩
    · rw [extent, hr]
      · omega
      · exact fun x y hk hcs => hf ⟨x, y, hk, hcs⟩
    · rw [extent, hr']
      · omega
      · intro x y hk hcs
        obtain ⟨x', y', hcs'⟩ := List.length_eq_two.mp (by simpa using congrArg List.length hcs : cs.length = 2)
        exact hf ⟨x', y', hk, hcs'⟩

theorem Framed.set (hd : cs[i]? = some d) (h : Eases d d') : Framed d d' (node k cs) (node k (cs.set i d')) :=
  ⟨load_set hd h, lift_set hd h, extent_set hd d'⟩

theorem Sinks.set (hd : cs[i]? = some d) (h : Sinks d d') : Sinks (node k cs) (node k (cs.set i d')) := by
  obtain ⟨r, hr, hr'⟩ := weight_set (k := k) hd d'
  rcases h with h | ⟨hw, he, hrest⟩
  · exact .inl (by omega)
  · exact .inr ⟨by omega, he.set hd, (Framed.set hd he).rest_le hrest⟩

theorem Falls.set (hd : cs[i]? = some d) (h : Falls d d') : Falls (node k cs) (node k (cs.set i d')) := by
  obtain ⟨r, hr, hr'⟩ := weight_set (k := k) hd d'
  rcases h with h | ⟨hw, he, hrest⟩
  · exact .inl (by omega)
  · exact .inr ⟨by omega, he.set hd, (Framed.set hd he).rest_lt hrest⟩

end Set

theorem rank_lt_of_child {k : OpKind} (hd : cs[i]? = some d) :
    d.rank < (node k cs).rank := by
  obtain ⟨w, hw, -⟩ := weight_set (k := k) hd d
  obtain ⟨r, -, hr, -, -⟩ := load_set (k := k) hd (.refl d)
  obtain ⟨m, s, -, hm, hs, -, -⟩ := lift_set (k := k) hd (.refl d)
  obtain ⟨n, u, hn, hpos, hu, -⟩ := extent_set (k := k) hd d
  have hlift : d.lift ≤ (node k cs).lift := by
    have := Nat.le_mul_of_pos_left d.lift hm
    omega
  have hext : d.extent < (node k cs).extent := by
    have := Nat.le_mul_of_pos_left d.extent hn
    omega
  have hload : d.load ≤ (node k cs).load := by
    rw [hr]
    exact le_add_of_nonneg_right bot_le
  rw [rank, rank, Prod.Lex.toLex_lt_toLex]
  have hle : d.weight ≤ (node k cs).weight := by omega
  exact hle.lt_or_eq.imp_right fun h => ⟨h, rest_lt_of_le hload hlift hext⟩

/-! ### Ways to fall -/

theorem falls_of_le (hw : b.weight ≤ a.weight) (he : Eases a b) (hload : b.load ≤ a.load)
    (hlift : b.lift ≤ a.lift) (hext : b.extent < a.extent) : Falls a b :=
  hw.lt_or_eq.imp_right fun hw => ⟨hw, he, rest_lt_of_le hload hlift hext⟩

theorem falls_of_lift (hw : b.weight ≤ a.weight) (he : Eases a b) (hload : b.load ≤ a.load)
    (hlift : b.lift < a.lift) : Falls a b :=
  hw.lt_or_eq.imp_right fun hw => ⟨hw, he, rest_lt_of_lift hload hlift⟩

theorem falls_of_load (hw : b.weight ≤ a.weight) (he : Eases a b) (hload : b.load < a.load) : Falls a b :=
  hw.lt_or_eq.imp_right fun hw => ⟨hw, he, rest_lt_of_load hload⟩

section Kinds
variable {k k' : OpKind} {cs es : List Outline}

/-- From above, an expression is told from another by its size, and by whether it is a marker. -/
theorem Eases.expression (hk : k.isScalar) (hk' : k'.isScalar) (hlone : (node k cs).isLone = false)
    (hbulk : (node k' es).bulk ≤ (node k cs).bulk) : Eases (node k cs) (node k' es) where
  isRow := by
    rw [isRow_of_not_relational (not_relational_of_isScalar hk), isRow_of_not_relational (not_relational_of_isScalar hk')]
  reach := by
    rw [reach_of_not_relational (not_relational_of_isScalar hk')]
    exact Nat.zero_le _
  hoist := by
    rw [hoist_of_not_relational (not_relational_of_isScalar hk')]
    exact Nat.zero_le _
  bulk := hbulk
  isSlim _ := isSlim_of_ne (by rintro rfl; cases hk')
  isLone h := by rw [hlone] at h; cases h

/-- From above, a relation is told from another by how far filters and projections may move in it. -/
theorem Eases.relation (hk : k.isRelational) (hk' : k'.isRelational)
    (hrow : (node k' es).isRow = (node k cs).isRow) (hreach : (node k' es).reach ≤ (node k cs).reach)
    (hhoist : (node k' es).hoist ≤ (node k cs).hoist) : Eases (node k cs) (node k' es) where
  isRow := hrow
  reach := hreach
  hoist := hhoist
  bulk := by rw [bulk_of_relational hk, bulk_of_relational hk']
  isSlim _ := isSlim_of_ne (by rintro rfl; cases hk')
  isLone h := by rw [isLone_of_relational hk] at h; cases h

end Kinds

theorem extent_pos (a : Outline) : 0 < a.extent := by
  obtain ⟨k, cs⟩ := a
  by_cases hk : k = .filter
  · subst hk
    rcases plain_or .filter cs with hp | ⟨x, y, rfl, -⟩
    · rw [hp.extent]
      exact Nat.succ_pos _
    · rw [extent_filter]
      exact Nat.succ_pos _
  · rw [extent_node hk]
    exact Nat.succ_pos _

theorem extent_lt_of_sublist {bs : List Outline} (hs : cs.Sublist bs) (hlt : cs.length < bs.length) :
    (cs.map extent).sum < (bs.map extent).sum := by
  induction hs with
  | slnil => exact absurd hlt (Nat.lt_irrefl _)
  | cons b hs _ =>
    have := (hs.map extent).sum_le_sum fun _ _ => Nat.zero_le _
    have := extent_pos b
    simp only [List.map_cons, List.sum_cons]
    omega
  | cons_cons b hs ih => exact Nat.add_lt_add_left (ih (Nat.lt_of_succ_lt_succ hlt)) _

/-! ### Parts of expressions -/

/-- Parts of an expression, each in a place of its own below its top. -/
structure Within (a : Outline) (bs : List Outline) : Prop where
  weight : (bs.map Outline.weight).sum ≤ a.weight
  load : (bs.map Outline.load).sum ≤ a.load
  lift : (bs.map Outline.lift).sum ≤ a.lift
  extent : (bs.map Outline.extent).sum < a.extent
  bulk : (bs.map Outline.bulk).sum < a.bulk

namespace Within

variable {a e : Outline} {bs cs es : List Outline} {k k' : OpKind}

theorem operands (h : k.isScalar) : Within (node k cs) cs := by
  have hk := not_relational_of_isScalar h
  have hp : Plain k cs := plain_of_not_relational hk
  refine ⟨?_, hp.load.ge, hp.lift.ge, ?_, ?_⟩
  · rw [weight_node]
    exact Nat.le_add_left _ _
  · rw [hp.extent]
    exact Nat.lt_succ_self _
  · rw [bulk_of_not_relational hk]
    exact Nat.lt_add_of_pos_left Nat.one_pos

theorem sublist (h : Within a bs) (hs : cs.Sublist bs) : Within a cs where
  weight := ((hs.map _).sum_le_sum fun _ _ => Nat.zero_le _).trans h.weight
  load := ((hs.map _).sum_le_sum fun _ _ => bot_le).trans h.load
  lift := ((hs.map _).sum_le_sum fun _ _ => Nat.zero_le _).trans h.lift
  extent := ((hs.map _).sum_le_sum fun _ _ => Nat.zero_le _).trans_lt h.extent
  bulk := ((hs.map _).sum_le_sum fun _ _ => Nat.zero_le _).trans_lt h.bulk

theorem only (h : Within a bs) (he : e ∈ bs) : Within a [e] := h.sublist (List.singleton_sublist.mpr he)

theorem expand (h : Within a (bs ++ [e])) (he : Within e es) : Within a (bs ++ es) := by
  obtain ⟨hw, hload, hlift, hext, hbulk⟩ := h
  simp only [List.map_append, List.sum_append, List.map_singleton, List.sum_singleton] at hw hload hlift hext hbulk
  refine ⟨?_, ?_, ?_, ?_, ?_⟩ <;> rw [List.map_append, List.sum_append]
  · exact (Nat.add_le_add_left he.weight _).trans hw
  · exact (add_le_add_right he.load _).trans hload
  · exact (Nat.add_le_add_left he.lift _).trans hlift
  · exact (Nat.add_lt_add_left he.extent _).trans hext
  · exact (Nat.add_lt_add_left he.bulk _).trans hbulk

theorem falls_part (h : Within (node k cs) [node k' es]) (hk : k.isScalar) (hk' : k'.isScalar)
    (hlone : (node k cs).isLone = false) : Falls (node k cs) (node k' es) := by
  obtain ⟨hw, hload, hlift, hext, hbulk⟩ := h
  simp only [List.map_singleton, List.sum_singleton] at hw hload hlift hext hbulk
  exact falls_of_le hw (.expression hk hk' hlone hbulk.le) hload hlift hext

theorem falls_over (h : Within (node k cs) es) (hk : k.isScalar) (hk' : k'.isScalar)
    (hlone : (node k cs).isLone = false) (hext : (es.map Outline.extent).sum + 1 < (node k cs).extent) :
    Falls (node k cs) (node k' es) := by
  have hp : Plain k' es := plain_of_not_relational (not_relational_of_isScalar hk')
  refine falls_of_le ?_ (.expression hk hk' hlone ?_) (hp.load.trans_le h.load) (hp.lift.trans_le h.lift) (hp.extent.trans_lt hext)
  · rw [weight_node, opWeight_of_not_relational (not_relational_of_isScalar hk'), Nat.zero_add]
    exact h.weight
  · rw [bulk_of_not_relational (not_relational_of_isScalar hk'), Nat.add_comm]
    exact h.bulk

end Within

end Planwright.Outline
