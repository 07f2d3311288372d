import HornClauses.Proofs.Distortion
import HornClauses.Proofs.TermCode
import HornClauses.Reader

/-!
# What codes tell about terms

Codes hold no numbers of arguments, and the cells of lists share one name with different numbers of
arguments. So terms with nested lists can have the same code, even when all other names are used in
one way. The code and the kinds of the nodes that are named like cells determine a term together; the
code alone does when cells stand along last arguments only.

* `Settings.EncodesInjectively`: the code of a term that is read determines it.
* `not_encodesInjectively_standard`: under either list style it does not.
* `SymbolTable.encodeTerm_eq_iff`: when two terms with the same code are the same.
-/

namespace HornClauses

namespace Term

/-- Two terms use every name but that of a cell as one kind. -/
def Agree (t u : Term) : Prop :=
  ∀ v ∈ t.preorder ++ u.preorder, ∀ w ∈ t.preorder ++ u.preorder,
    v.name = w.name → v.name ≠ cellName → v.kind = w.kind

/-- The kinds of the nodes that are named like cells, in order. -/
def cellKinds (t : Term) : List Kind := (t.preorder.filter fun u => u.name = cellName).map kind

def CellFree (t : Term) : Prop := ∀ u ∈ t.preorder, u.name ≠ cellName

/-- The nodes that are named like cells are cells, and stand along last arguments only. -/
structure CellsLast (t : Term) : Prop where
  isCell : ∀ u ∈ t.preorder, u.name = cellName → u.isCell = true
  last : ∀ u ∈ t.preorder, ∀ v ∈ u.args.dropLast, v.CellFree

theorem CellsLast.of_mem_args {t v : Term} (h : t.CellsLast) (hv : v ∈ t.args) : v.CellsLast where
  isCell u hu := h.isCell u (mem_preorder.2 (Or.inr ⟨v, hv, hu⟩))
  last u hu := h.last u (mem_preorder.2 (Or.inr ⟨v, hv, hu⟩))

end Term

namespace SymbolTable

/-- The names have ids, and different names have different ones. -/
structure Separates (table : SymbolTable) (names : List String) : Prop where
  known : ∀ n ∈ names, (table.id? n).isSome = true
  distinct : ∀ n ∈ names, ∀ m ∈ names, table.id? n = table.id? m → n = m

theorem Separates.names_eq {table : SymbolTable} {names names' : List String}
    (h : table.Separates (names ++ names'))
    (heq : table.encodeNames names = table.encodeNames names') : names = names' := by
  have hids : ∃ ids : List UInt32, names.map table.id? = ids.map some := by
    refine ⟨names.map fun n => (table.id? n).getD 0, ?_⟩
    rw [List.map_map]
    refine List.map_congr_left fun n hn => ?_
    obtain ⟨id, hid⟩ := Option.isSome_iff_exists.1 (h.known n (List.mem_append_left _ hn))
    simp [hid]
  obtain ⟨ids, hids⟩ := hids
  have hids' := encodeNames_eq_ok.1 (heq ▸ encodeNames_eq_ok.2 hids)
  have hmap : names.map table.id? = names'.map table.id? := hids.trans hids'.symm
  have hdistinct : ∀ n ∈ names, ∀ m ∈ names', table.id? n = table.id? m → n = m := fun n hn m hm =>
    h.distinct n (List.mem_append_left _ hn) m (List.mem_append_right _ hm)
  clear h heq hids hids'
  induction names generalizing names' with
  | nil => exact (List.map_eq_nil_iff.1 hmap.symm).symm
  | cons n names ih =>
    cases names' with
    | nil => cases hmap
    | cons m names' =>
      rw [List.map_cons, List.map_cons, List.cons.injEq] at hmap
      have hrest : ∀ n ∈ names, ∀ m ∈ names', table.id? n = table.id? m → n = m :=
        fun n' hn' m' hm' =>
          hdistinct n' (List.mem_cons_of_mem n hn') m' (List.mem_cons_of_mem m hm')
      rw [hdistinct n List.mem_cons_self m List.mem_cons_self hmap.1, ih hmap.2 hrest]

end SymbolTable

namespace Term

variable {t u : Term}

/-! ## Codes with the kinds of cells -/

/-- Where the names are the same, and the kinds of cells, all kinds are. -/
theorem map_kind_eq {vs ws : List Term}
    (hagree : ∀ v ∈ vs, ∀ w ∈ ws, v.name = w.name → v.name ≠ cellName → v.kind = w.kind)
    (hnames : vs.map name = ws.map name)
    (hcells : (vs.filter fun v => v.name = cellName).map kind =
      (ws.filter fun w => w.name = cellName).map kind) :
    vs.map (fun v => (v.name, v.kind)) = ws.map fun w => (w.name, w.kind) := by
  induction vs generalizing ws with
  | nil =>
    rw [List.map_nil, eq_comm, List.map_eq_nil_iff] at hnames
    rw [hnames]
  | cons v vs ih =>
    cases ws with
    | nil => cases hnames
    | cons w ws =>
      rw [List.map_cons, List.map_cons, List.cons.injEq] at hnames
      have hrest : ∀ v' ∈ vs, ∀ w' ∈ ws, v'.name = w'.name → v'.name ≠ cellName →
          v'.kind = w'.kind := fun v' hv' w' hw' =>
        hagree v' (List.mem_cons_of_mem v hv') w' (List.mem_cons_of_mem w hw')
      rw [List.map_cons, List.map_cons, List.cons.injEq, Prod.mk.injEq]
      by_cases hcell : v.name = cellName
      · have hcell' : w.name = cellName := hnames.1 ▸ hcell
        simp only [List.filter_cons, hcell, hcell', decide_true, if_true, List.map_cons,
          List.cons.injEq] at hcells
        exact ⟨⟨hnames.1, hcells.1⟩, ih hrest hnames.2 hcells.2⟩
      · have hcell' : w.name ≠ cellName := hnames.1 ▸ hcell
        simp only [List.filter_cons, hcell, hcell', decide_false, Bool.false_eq_true,
          if_false] at hcells
        have hkind := hagree v List.mem_cons_self w List.mem_cons_self hnames.1 hcell
        exact ⟨⟨hnames.1, hkind⟩, ih hrest hnames.2 hcells⟩

theorem eq_of_names_of_cellKinds (hagree : t.Agree u) (hnames : t.names = u.names)
    (hcells : t.cellKinds = u.cellKinds) : t = u := by
  have hmap := map_kind_eq (fun v hv w hw =>
    hagree v (List.mem_append_left _ hv) w (List.mem_append_right _ hw)) hnames hcells
  have hlabel : ∀ v ∈ t.preorder, ∀ w ∈ u.preorder, (v.name, v.kind) = (w.name, w.kind) →
      v.name = w.name ∧ v.kind = w.kind := by
    intro v _ w _ h
    rwa [Prod.mk.injEq] at h
  rw [← List.append_nil (t.preorder.map _), ← List.append_nil (u.preorder.map _)] at hmap
  exact (map_preorder_append_inj hlabel hmap).1

/-! ## Codes of terms with cells along last arguments -/

/-- A term without cells is not the beginning of another term. -/
theorem CellFree.names_append_inj (ht : t.CellFree) (hagree : t.Agree u) {s s' : List String}
    (h : t.names ++ s = u.names ++ s') : t = u ∧ s = s' := by
  refine map_preorder_append_inj (f := name) (fun v hv w hw hname => ⟨hname, ?_⟩) h
  exact hagree v (List.mem_append_left _ hv) w (List.mem_append_right _ hw) hname (ht v hv)

theorem Agree.symm (h : t.Agree u) : u.Agree t := by
  intro v hv w hw
  exact h v (List.mem_append.2 (List.mem_append.1 hv).symm) w
    (List.mem_append.2 (List.mem_append.1 hw).symm)

theorem Agree.of_mem_args {v w : Term} (h : t.Agree u) (hv : v ∈ t.args) (hw : w ∈ u.args) :
    v.Agree w := by
  have hmem : ∀ x ∈ v.preorder ++ w.preorder, x ∈ t.preorder ++ u.preorder := by
    intro x hx
    rcases List.mem_append.1 hx with hx | hx
    · exact List.mem_append_left _ (mem_preorder.2 (Or.inr ⟨v, hv, hx⟩))
    · exact List.mem_append_right _ (mem_preorder.2 (Or.inr ⟨w, hw, hx⟩))
  exact fun x hx y hy => h x (hmem x hx) y (hmem y hy)

theorem names_ne_nil (t : Term) : t.names ≠ [] := by
  rw [names_eq]
  exact List.cons_ne_nil _ _

/-- Arguments are told apart by their names one after another if only the last holds cells. -/
theorem eq_of_flatMap_names {ts us : List Term} (hts : ∀ v ∈ ts.dropLast, v.CellFree)
    (hus : ∀ w ∈ us.dropLast, w.CellFree) (hagree : ∀ v ∈ ts, ∀ w ∈ us, v.Agree w)
    (heq : ∀ v ∈ ts, ∀ w ∈ us, v.names = w.names → v = w)
    (h : ts.flatMap names = us.flatMap names) : ts = us := by
  induction ts generalizing us with
  | nil =>
    cases us with
    | nil => rfl
    | cons w us =>
      rw [List.flatMap_nil, List.flatMap_cons, eq_comm, List.append_eq_nil_iff] at h
      exact absurd h.1 w.names_ne_nil
  | cons v ts ih =>
    cases us with
    | nil =>
      rw [List.flatMap_nil, List.flatMap_cons, List.append_eq_nil_iff] at h
      exact absurd h.1 v.names_ne_nil
    | cons w us =>
      rw [List.flatMap_cons, List.flatMap_cons] at h
      have hvw := hagree v List.mem_cons_self w List.mem_cons_self
      cases ts with
      | cons v' ts =>
        -- The first of several arguments holds no cells, so it is the same on both sides.
        rw [List.dropLast_cons_cons, List.forall_mem_cons] at hts
        obtain ⟨rfl, hrest⟩ := hts.1.names_append_inj hvw h
        have hus' : ∀ w ∈ us.dropLast, w.CellFree := by
          intro w' hw'
          cases us with
          | nil => cases hw'
          | cons w us => exact hus w' (List.mem_cons_of_mem _ hw')
        rw [ih hts.2 hus' (fun x hx y hy => hagree x (List.mem_cons_of_mem v hx) y
          (List.mem_cons_of_mem v hy)) (fun x hx y hy => heq x (List.mem_cons_of_mem v hx) y
          (List.mem_cons_of_mem v hy)) hrest]
      | nil =>
        cases us with
        | nil =>
          rw [List.flatMap_nil, List.append_nil, List.append_nil] at h
          rw [heq v List.mem_cons_self w List.mem_cons_self h]
        | cons w' us =>
          rw [List.dropLast_cons_cons, List.forall_mem_cons] at hus
          obtain ⟨-, hrest⟩ := hus.1.names_append_inj hvw.symm h.symm
          rw [List.flatMap_nil, List.flatMap_cons, List.append_eq_nil_iff] at hrest
          exact absurd hrest.1 w'.names_ne_nil

/-- The names determine a term in which cells stand along last arguments only. -/
theorem eq_of_names_of_cellsLast (ht : t.CellsLast) (hu : u.CellsLast) (hagree : t.Agree u)
    (hnames : t.names = u.names) : t = u := by
  induction t using induct_args generalizing u with
  | step t ih =>
    rw [names_eq t, names_eq u, List.cons.injEq] at hnames
    obtain ⟨hname, hrest⟩ := hnames
    have hargs : t.args = u.args :=
      eq_of_flatMap_names (ht.last t t.self_mem_preorder) (hu.last u u.self_mem_preorder)
        (fun v hv w hw => hagree.of_mem_args hv hw)
        (fun v hv w hw h => ih v hv (ht.of_mem_args hv) (hu.of_mem_args hw)
          (hagree.of_mem_args hv hw) h) hrest
    by_cases hcell : t.name = cellName
    · obtain ⟨ts, rfl⟩ := isCell_iff.1 (ht.isCell t t.self_mem_preorder hcell)
      obtain ⟨us, rfl⟩ := isCell_iff.1 (hu.isCell u u.self_mem_preorder (hname ▸ hcell))
      exact congrArg cell hargs
    · have hkind := hagree t (List.mem_append_left _ t.self_mem_preorder) u
        (List.mem_append_right _ u.self_mem_preorder) hname hcell
      exact eq_of_kind_of_args hname hkind hargs

end Term

namespace SymbolTable

/-- When all names but that of cells are used in one way, two terms are the same exactly when their
codes are and the nodes named like cells have the same kinds. The codes suffice if cells stand along
last arguments only. -/
theorem encodeTerm_eq_iff {table : SymbolTable} {t u : Term} (hagree : t.Agree u)
    (htable : table.Separates (t.names ++ u.names)) :
    (t = u ↔ table.encodeTerm t = table.encodeTerm u ∧ t.cellKinds = u.cellKinds) ∧
      (t.CellsLast → u.CellsLast → table.encodeTerm t = table.encodeTerm u → t = u) := by
  refine ⟨⟨?_, ?_⟩, ?_⟩
  · rintro rfl
    exact ⟨rfl, rfl⟩
  · rintro ⟨hcode, hcells⟩
    exact Term.eq_of_names_of_cellKinds hagree (htable.names_eq hcode) hcells
  · intro ht hu hcode
    exact Term.eq_of_names_of_cellsLast ht hu hagree (htable.names_eq hcode)

end SymbolTable

/-! ## Nested lists -/

/-- The term of `[[] | [[] | []]]` -/
def nestedInTail : Term := .cell [.nil, .cell [.nil, .nil]]

/-- The term of `[[[] | []] | []]` -/
def nestedInHead : Term := .cell [.cell [.nil, .nil], .nil]

theorem agree_nested : nestedInTail.Agree nestedInHead := by
  unfold Term.Agree
  decide

theorem separates_nested :
    (SymbolTable.ofNames ["."]).Separates (nestedInTail.names ++ nestedInHead.names) :=
  ⟨by decide, by decide⟩

/-- The terms of `[a, b | X]` and of `[a | b]` -/
def openList : Term := .cell [.atom "a", .cell [.atom "b", .var "X"]]

def openPair : Term := .cell [.atom "a", .atom "b"]

theorem cellsLast_openList : openList.CellsLast :=
  ⟨by decide, by unfold Term.CellFree; decide⟩

theorem cellsLast_openPair : openPair.CellsLast :=
  ⟨by decide, by unfold Term.CellFree; decide⟩

theorem agree_open : openList.Agree openPair := by
  unfold Term.Agree
  decide

theorem separates_open :
    (SymbolTable.ofNames [".", "a", "b", "X"]).Separates (openList.names ++ openPair.names) :=
  ⟨by decide, by decide⟩

/-- The nested lists have the same code, so the kinds of their cells differ; the open lists differ, so
their codes do. -/
theorem cellKinds_nested_ne :
    (nestedInTail.Agree nestedInHead ∧
      (SymbolTable.ofNames ["."]).Separates (nestedInTail.names ++ nestedInHead.names) ∧
        nestedInTail.cellKinds ≠ nestedInHead.cellKinds) ∧
      (SymbolTable.ofNames [".", "a", "b", "X"]).encodeTerm openList ≠
        (SymbolTable.ofNames [".", "a", "b", "X"]).encodeTerm openPair := by
  refine ⟨⟨agree_nested, separates_nested, fun hkinds => ?_⟩, fun hcode => ?_⟩
  · have hiff := (SymbolTable.encodeTerm_eq_iff agree_nested separates_nested).1
    have heq := hiff.2 ⟨by decide, hkinds⟩
    revert heq
    decide
  · have heq := (SymbolTable.encodeTerm_eq_iff agree_open separates_open).2 cellsLast_openList
      cellsLast_openPair hcode
    revert heq
    decide

/-- Equal codes of terms that are read under the settings are codes of the same term, when all names
but that of cells are used in one way. -/
def Settings.EncodesInjectively (settings : Settings) : Prop :=
  ∀ text₁ text₂ t u (table : SymbolTable), settings.readTerm text₁ = .ok t →
    settings.readTerm text₂ = .ok u → t.Agree u → table.Separates (t.names ++ u.names) →
      table.encodeTerm t = table.encodeTerm u → t = u

theorem not_encodesInjectively (style : ListStyle) :
    ¬ Settings.EncodesInjectively ⟨style, .standard⟩ := by
  intro hinj
  have hleft : Settings.readTerm ⟨style, .standard⟩ "[[] | [[] | []]]".toList =
      .ok nestedInTail := by
    cases style <;> decide +kernel
  have hright : Settings.readTerm ⟨style, .standard⟩ "[[[] | []] | []]".toList =
      .ok nestedInHead := by
    cases style <;> decide +kernel
  have heq := hinj _ _ _ _ _ hleft hright agree_nested separates_nested (by decide)
  revert heq
  decide

/-- Under neither list style does the code of a term determine it. -/
theorem not_encodesInjectively_standard :
    ¬ Settings.EncodesInjectively ⟨.legacy, .standard⟩ ∧
      ¬ Settings.EncodesInjectively ⟨.canonical, .standard⟩ :=
  ⟨not_encodesInjectively .legacy, not_encodesInjectively .canonical⟩

end HornClauses
