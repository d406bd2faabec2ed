import Mathlib

/-! # Searching finite graphs

A graph is given by the successors of each vertex. Depth-first search finds an order with successors
first, or a cycle. Breadth-first search finds what is reachable. -/
namespace GraphSearch

open List
open Function (update)

variable {V : Type} {next : V → List V}

def Edge (next : V → List V) (a b : V) : Prop := b ∈ next a

def Cycle (next : V → List V) (walk : List V) : Prop :=
  ∃ v rest, walk = v :: rest ++ [v] ∧ walk.IsChain (Edge next)

theorem Cycle.transGen (h : Cycle next walk) : ∃ v, Relation.TransGen (Edge next) v v := by
  obtain ⟨v, rest, rfl, hcha⟩ := h
  cases rest with
  | nil => exact ⟨v, .single (isChain_pair.mp hcha)⟩
  | cons w rest =>
    obtain ⟨hed, hta⟩ := isChain_cons_cons.mp hcha
    have hla : (w :: rest.append [v]).getLast (cons_ne_nil _ _) = v := by simp
    have hwa := relationReflTransGen_of_exists_isChain_cons _ hta hla
    exact ⟨v, Relation.TransGen.head' hed hwa⟩

def PostOrder (next : V → List V) (order : List V) : Prop :=
  ∀ before v after, order = before ++ v :: after → ∀ c ∈ next v, c ∈ before

theorem postOrder_nil : PostOrder next [] := by
  intro pre v post h
  simp at h

theorem PostOrder.snoc (h : PostOrder next ord) (hv : ∀ c ∈ next v, c ∈ ord) :
    PostOrder next (ord ++ [v]) := by
  intro pre w post hspl c hc
  rcases eq_nil_or_concat post with rfl | ⟨post, last, rfl⟩
  · obtain ⟨rfl, hw⟩ := append_inj' hspl rfl
    obtain rfl := singleton_inj.mp hw
    exact hv c hc
  rw [concat_eq_append, ← cons_append, ← append_assoc] at hspl
  exact h pre w post (append_inj' hspl rfl).1 c hc

theorem PostOrder.mem (h : PostOrder next ord) (hv : v ∈ ord) (hc : c ∈ next v) : c ∈ ord := by
  obtain ⟨pre, post, rfl⟩ := append_of_mem hv
  exact mem_append_left _ (h pre v post rfl c hc)

theorem PostOrder.idxOf_lt [DecidableEq V] (h : PostOrder next ord) (hnd : ord.Nodup)
    (hv : v ∈ ord) (hc : c ∈ next v) : ord.idxOf c < ord.idxOf v := by
  obtain ⟨pre, post, rfl⟩ := append_of_mem hv
  have hbef := h pre v post rfl c hc
  have hnot : v ∉ pre := fun hmem =>
    (nodup_append.mp hnd).2.2 v hmem v (by simp) rfl
  rw [idxOf_append_of_mem hbef, idxOf_append_of_notMem hnot]
  exact lt_of_lt_of_le (idxOf_lt_length_of_mem hbef) (Nat.le_add_right _ _)

theorem PostOrder.transGen_lt [DecidableEq V] (h : PostOrder next ord) (hnd : ord.Nodup)
    (hv : v ∈ ord) (hpt : Relation.TransGen (Edge next) v w) :
    w ∈ ord ∧ ord.idxOf w < ord.idxOf v := by
  induction hpt with
  | single hed => exact ⟨h.mem hv hed, h.idxOf_lt hnd hv hed⟩
  | tail _ hed ih => exact ⟨h.mem ih.1 hed, (h.idxOf_lt hnd ih.1 hed).trans ih.2⟩

theorem PostOrder.acyclic [DecidableEq V] (h : PostOrder next ord) (hnd : ord.Nodup)
    (hv : v ∈ ord) : ¬ Relation.TransGen (Edge next) v v :=
  fun hpt => lt_irrefl _ (h.transGen_lt hnd hv hpt).2

inductive Mark where
  | unvisited
  | visiting
  | visited
  deriving DecidableEq

structure Search (V : Type) where
  marks : V → Mark
  order : List V

inductive Stop (V : Type) where
  | cycle (walk : List V)
  | unreachable
  | outOfFuel
  deriving DecidableEq

/-- `path` leads from the start of the search to `v`, which it does not contain. -/
def dfs [DecidableEq V] (next : V → List V) : ℕ → V → List V → Search V → Except (Stop V) (Search V)
  | 0, _, _, _ => .error .outOfFuel
  | fuel + 1, v, path, s =>
    match s.marks v with
    | .visiting =>
      match path.dropWhile (· ≠ v) with
      | [] => .error .unreachable
      | w :: rest => .error (.cycle (w :: rest ++ [v]))
    | .visited => .ok s
    | .unvisited => do
      let s ← (next v).foldlM (fun s c => dfs next fuel c (path ++ [v]) s)
        { s with marks := update s.marks v .visiting }
      .ok ⟨update s.marks v .visited, s.order ++ [v]⟩

structure Invariant (next : V → List V) (vertices path : List V) (s : Search V) : Prop where
  visiting : ∀ v, s.marks v = .visiting ↔ v ∈ path
  visited : ∀ v, s.marks v = .visited ↔ v ∈ s.order
  nodup : s.order.Nodup
  bounded : ∀ v ∈ s.order, v ∈ vertices
  postOrder : PostOrder next s.order

def Outcome (next : V → List V) (vertices path : List V) (s : Search V) (found : List V) :
    Except (Stop V) (Search V) → Prop
  | .ok s' => Invariant next vertices path s' ∧ (∀ v ∈ found, v ∈ s'.order) ∧
      ∀ v ∈ s.order, v ∈ s'.order
  | .error (.cycle walk) => Cycle next walk
  | .error _ => False

variable {s : Search V}

theorem Outcome.error (h : Outcome next vertices path s found (.error stop)) :
    Outcome next vertices path' s' found' (.error stop) := by
  cases stop <;> exact h

theorem Invariant.enter [DecidableEq V] (h : Invariant next vertices path s)
    (hv : s.marks v = .unvisited) : Invariant next vertices (path ++ [v])
      { s with marks := update s.marks v .visiting } := by
  refine ⟨fun w => ?_, fun w => ?_, h.nodup, h.bounded, h.postOrder⟩
  · by_cases hw : w = v
    · simp [hw]
    · simp [hw, h.visiting]
  · by_cases hw : w = v
    · subst hw
      simp [← h.visited, hv]
    · simp [hw, h.visited]

theorem Invariant.leave [DecidableEq V] (h : Invariant next vertices (path ++ [v]) s)
    (hpt : v ∉ path) (hv : v ∈ vertices) (hnx : ∀ c ∈ next v, c ∈ s.order) :
    Invariant next vertices path ⟨update s.marks v .visited, s.order ++ [v]⟩ := by
  have hmk : s.marks v = .visiting := (h.visiting v).mpr (by simp)
  have hnot : v ∉ s.order := by
    rw [← h.visited, hmk]
    exact Mark.noConfusion
  refine ⟨fun w => ?_, fun w => ?_, nodup_append_comm.mp (nodup_cons.mpr ⟨hnot, h.nodup⟩),
    forall_mem_append.mpr ⟨h.bounded, forall_mem_singleton.mpr hv⟩, h.postOrder.snoc hnx⟩
  · by_cases hw : w = v
    · subst hw
      simp [hpt]
    · simp [hw, h.visiting]
  · by_cases hw : w = v
    · simp [hw]
    · simp [hw, h.visited]

theorem cycle_of_visiting [DecidableEq V] (hv : v ∈ path)
    (hcha : (path ++ [v]).IsChain (Edge next)) :
    ∃ w rest, path.dropWhile (· ≠ v) = w :: rest ∧ Cycle next (w :: rest ++ [v]) := by
  have hspl := takeWhile_append_dropWhile (p := fun w => decide (w ≠ v)) (l := path)
  cases hdr : path.dropWhile (· ≠ v) with
  | nil =>
    have := dropWhile_eq_nil_iff.mp hdr v hv
    simp at this
  | cons w rest =>
    have hne : path.dropWhile (fun w => decide (w ≠ v)) ≠ [] := by
      rw [hdr]
      exact cons_ne_nil _ _
    have hhd := head_dropWhile_not _ hne
    simp only [hdr, head_cons, decide_eq_false_iff_not, not_not] at hhd
    subst hhd
    rw [← hspl, hdr, append_assoc] at hcha
    exact ⟨w, rest, rfl, w, rest, rfl, hcha.right_of_append⟩

theorem foldlM_outcome {sea : V → Search V → Except (Stop V) (Search V)}
    (hsch : ∀ c ∈ found, ∀ s, Invariant next vertices path s →
      Outcome next vertices path s [c] (sea c s)) (hs : Invariant next vertices path s) :
    Outcome next vertices path s found (found.foldlM (fun s c => sea c s) s) := by
  induction found generalizing s with
  | nil => exact ⟨hs, by simp, fun v hv => hv⟩
  | cons c rest ih =>
    have hone := hsch c (by simp) s hs
    rw [foldlM_cons]
    cases hrun : sea c s with
    | error stop =>
      rw [hrun] at hone
      exact hone.error
    | ok s' =>
      rw [hrun] at hone
      obtain ⟨hinv, hfnd, hkp⟩ := hone
      have htwo := ih (forall_mem_cons.mp hsch).2 hinv
      change Outcome next vertices path s (c :: rest) (rest.foldlM (fun s c => sea c s) s')
      cases hrs : rest.foldlM (fun s c => sea c s) s' with
      | error stop =>
        rw [hrs] at htwo
        exact htwo.error
      | ok s'' =>
        rw [hrs] at htwo
        obtain ⟨hinv', hfnd', hkp'⟩ := htwo
        exact ⟨hinv', forall_mem_cons.mpr ⟨hkp' c (hfnd c (by simp)), hfnd'⟩,
          fun v hv => hkp' v (hkp v hv)⟩

/-- With more fuel than there are vertices, less those on the path, a search answers. -/
theorem dfs_outcome [DecidableEq V] (hnx : ∀ v, ∀ c ∈ next v, c ∈ vertices) (fuel : ℕ) :
    ∀ (v : V) (path : List V) (s : Search V), vertices.length < fuel + path.length →
      (∀ w ∈ path ++ [v], w ∈ vertices) → path.Nodup → (path ++ [v]).IsChain (Edge next) →
      Invariant next vertices path s →
      Outcome next vertices path s [v] (dfs next fuel v path s) := by
  induction fuel with
  | zero =>
    intro v path s hfu hmem hnd _ _
    have hle := (subperm_of_subset hnd (forall_mem_append.mp hmem).1).length_le
    omega
  | succ fuel ih =>
    intro v path s hfu hmem hnd hcha hs
    rw [dfs]
    cases hmk : s.marks v with
    | visiting =>
      obtain ⟨w, rest, hdr, hcyc⟩ := cycle_of_visiting ((hs.visiting v).mp hmk) hcha
      simp only [hdr]
      exact hcyc
    | visited =>
      exact ⟨hs, forall_mem_singleton.mpr ((hs.visited v).mp hmk), fun w hw => hw⟩
    | unvisited =>
      have hpt : v ∉ path := by
        rw [← hs.visiting, hmk]
        exact Mark.noConfusion
      have hnd' : (path ++ [v]).Nodup :=
        nodup_append_comm.mp (nodup_cons.mpr ⟨hpt, hnd⟩)
      have hsch : ∀ c ∈ next v, ∀ s, Invariant next vertices (path ++ [v]) s →
          Outcome next vertices (path ++ [v]) s [c] (dfs next fuel c (path ++ [v]) s) := by
        intro c hc s hs
        have hmem' := forall_mem_append.mpr ⟨hmem, forall_mem_singleton.mpr (hnx v c hc)⟩
        refine ih c (path ++ [v]) s (by simp; omega) hmem' hnd' ?_ hs
        refine hcha.append (isChain_singleton c) ?_
        intro a ha b hb
        simp only [getLast?_append, getLast?_singleton, Option.some_or,
          Option.mem_def, Option.some.injEq, head?_cons] at ha hb
        subst ha hb
        exact hc
      have hchi := foldlM_outcome hsch (hs.enter hmk)
      cases hrun : (next v).foldlM (fun s c => dfs next fuel c (path ++ [v]) s)
        { s with marks := update s.marks v .visiting } with
      | error stop =>
        rw [hrun] at hchi
        exact hchi.error
      | ok s' =>
        rw [hrun] at hchi
        obtain ⟨hinv, hfnd, hkp⟩ := hchi
        exact ⟨hinv.leave hpt (hmem v (by simp)) hfnd, fun w hw => mem_append_right _ hw,
          fun w hw => mem_append_left _ (hkp w hw)⟩

theorem of_bind_ok {x : Except (Stop V) (Search V)} (h : x >>= f = .ok s) :
    ∃ t, x = .ok t ∧ f t = .ok s := by
  cases x with
  | error stop => cases h
  | ok t => exact ⟨t, rfl, h⟩

/-- What holds of every vertex of a list and those before it. -/
def Trail (P : List V → V → Prop) : List V → List V → Prop
  | _, [] => True
  | finished, w :: rest => P finished w ∧ Trail P (finished ++ [w]) rest

theorem trail_append : Trail P fin (a ++ b) ↔ Trail P fin a ∧ Trail P (fin ++ a) b := by
  induction a generalizing fin with
  | nil => simp [Trail]
  | cons w a ih => simp [Trail, ih, and_assoc]

theorem Trail.imp (h : Trail P fin added)
    (himp : ∀ f w, fin ⊆ f → f ⊆ fin ++ added → P f w → Q f w) : Trail Q fin added := by
  induction added generalizing fin with
  | nil => trivial
  | cons w rest ih =>
    refine ⟨himp _ w (Subset.refl _) (subset_append_left _ _) h.1, ih h.2 fun f w hf hadd => ?_⟩
    refine himp f w (Subset.trans (subset_append_left _ _) hf) ?_
    simpa using hadd

section Descending

variable [DecidableEq V]

/-- Where a search goes from a vertex once others are finished. -/
def Descent (next : V → List V) (finished : List V) (a b : V) : Prop :=
  (next a).find? (· ∉ finished) = some b

/-- The search comes to a vertex from the first of its starts that is not finished, and finishes
it after its successors. -/
def Reached (next : V → List V) (starts finished : List V) (w : V) : Prop :=
  (∃ c, starts.find? (· ∉ finished) = some c ∧ Relation.ReflTransGen (Descent next finished) c w) ∧
    ∀ c ∈ next w, c ∈ finished

structure Descends (next : V → List V) (s : Search V) (starts : List V) (s' : Search V) : Prop where
  visited : ∀ v, s'.marks v = .visited ↔ v ∈ s'.order
  visiting : ∀ v, s.marks v = .visiting → s'.marks v = .visiting
  found : ∀ v ∈ starts, v ∈ s'.order
  added : ∃ added, s'.order = s.order ++ added ∧ Trail (Reached next starts) s.order added

theorem foldlM_descends {sea : V → Search V → Except (Stop V) (Search V)} {start : List V}
    (hsch : ∀ c s s', (∀ v, s.marks v = .visited ↔ v ∈ s.order) → sea c s = .ok s' →
      Descends next s [c] s')
    (hs : ∀ v, s.marks v = .visited ↔ v ∈ s.order)
    (h : start.foldlM (fun s c => sea c s) s = .ok s') : Descends next s start s' := by
  induction start generalizing s with
  | nil =>
    cases h
    exact ⟨hs, fun _ hv => hv, by simp, [], by simp [Trail]⟩
  | cons c rest ih =>
    obtain ⟨t, hrun, h⟩ := of_bind_ok h
    obtain ⟨hvis, hvg, hfnd, added, hord, htra⟩ := hsch c s t hs hrun
    obtain ⟨hvis', hvg', hfnd', added', hord', htra'⟩ := ih hvis h
    have hc : c ∈ t.order := hfnd c (by simp)
    refine ⟨hvis', fun v hv => hvg' v (hvg v hv), ?_, added ++ added', ?_, ?_⟩
    · refine forall_mem_cons.mpr ⟨?_, hfnd'⟩
      rw [hord']
      exact mem_append_left _ hc
    · rw [hord', hord, append_assoc]
    · refine trail_append.mpr ⟨htra.imp ?_, ?_⟩
      · rintro f w - - ⟨⟨d, hd, hpt⟩, hw⟩
        refine ⟨⟨d, ?_, hpt⟩, hw⟩
        rw [← singleton_append, find?_append, hd, Option.some_or]
      · rw [← hord]
        refine htra'.imp ?_
        rintro f w hf - ⟨⟨d, hd, hpt⟩, hw⟩
        refine ⟨⟨d, ?_, hpt⟩, hw⟩
        rw [find?_cons_of_neg (by simpa using hf hc), hd]

theorem dfs_descends (fuel : ℕ) {v : V} (hs : ∀ v, s.marks v = .visited ↔ v ∈ s.order)
    (h : dfs next fuel v path s = .ok s') : Descends next s [v] s' := by
  induction fuel generalizing v path s s' with
  | zero => cases h
  | succ fuel ih =>
    rw [dfs] at h
    cases hmk : s.marks v with
    | visiting =>
      simp only [hmk] at h
      split at h <;> cases h
    | visited =>
      simp only [hmk] at h
      cases h
      exact ⟨hs, fun _ hv => hv, forall_mem_singleton.mpr ((hs v).mp hmk), [], by simp [Trail]⟩
    | unvisited =>
      simp only [hmk] at h
      obtain ⟨t, hrun, ⟨⟩⟩ := of_bind_ok h
      have hst : ∀ w, update s.marks v .visiting w = .visited ↔ w ∈ s.order := by
        intro w
        by_cases hw : w = v
        · subst hw
          simp [← hs, hmk]
        · simp [hw, hs]
      obtain ⟨hvis, hvg, hfnd, added, hord, htra⟩ :=
        @foldlM_descends _ next { s with marks := update s.marks v .visiting } _ _ _ _
          (fun c s s' hs h => ih hs h) hst hrun
      have hnot : v ∉ t.order := by
        rw [← hvis, hvg v (by simp)]
        exact Mark.noConfusion
      have hv : ∀ f, f ⊆ t.order → [v].find? (· ∉ f) = some v := fun f hf =>
        find?_cons_of_pos (by simpa using fun hmem => hnot (hf hmem))
      refine ⟨fun w => ?_, fun w hw => ?_, by simp, added ++ [v], by simp [hord], ?_⟩
      · by_cases hw : w = v
        · simp [hw]
        · simp [hw, hvis]
      · have hne : w ≠ v := by
          rintro rfl
          rw [hmk] at hw
          cases hw
        simp [hne, hvg, hw]
      · refine trail_append.mpr ⟨htra.imp ?_, ?_, trivial⟩
        · rintro f w - hf ⟨⟨c, hc, hpt⟩, hw⟩
          exact ⟨⟨v, hv f (hord ▸ hf), .head hc hpt⟩, hw⟩
        · rw [← hord]
          exact ⟨⟨v, hv _ (Subset.refl _), .refl⟩, hfnd⟩

end Descending

theorem Trail.sorted_iff [LinearOrder V] (hup : ∀ v, ∀ c ∈ next v, v < c)
    (hnd : (fin ++ rest).Nodup) (hall : ∀ v, ∀ c ∈ next v, c ∈ fin ++ rest)
    (hgre : ∀ a ∈ fin, ∀ b ∈ rest, b < a) (h : Trail (Reached next [root]) fin rest) :
    rest.Pairwise (· > ·) ↔ ∀ u ∈ rest,
      Relation.ReflTransGen (fun a b => (next a).find? (· ≤ u) = some b) root u := by
  induction rest generalizing fin with
  | nil => simp
  | cons w rest ih =>
    obtain ⟨⟨⟨c, hc, hpt⟩, hw⟩, htra⟩ := h
    obtain rfl : root = c :=
      (mem_singleton.mp (mem_of_find?_eq_some hc)).symm
    -- Up to the largest unfinished vertex the walks agree.
    have hsm : ∀ u ∈ w :: rest, (∀ x ∈ w :: rest, x ≤ u) → ∀ a,
        (next a).find? (· ∉ fin) = (next a).find? (· ≤ u) := by
      intro u hu hmax a
      rw [← head?_filter, ← head?_filter]
      refine congrArg head? (filter_congr fun c hc => ?_)
      have hmem := mem_append.mp (hall a c hc)
      by_cases hfin : c ∈ fin
      · simp [hfin, hgre c hfin u hu]
      · simp [hfin, hmax c (hmem.resolve_left hfin)]
    have hwa : ∀ u ∈ w :: rest, (∀ x ∈ w :: rest, x ≤ u) →
        Relation.ReflTransGen (fun a b => (next a).find? (· ≤ u) = some b) root w := by
      intro u hu hmax
      refine Relation.ReflTransGen.mono (fun a b hab => ?_) _ _ hpt
      rw [← hsm u hu hmax]
      exact hab
    have hst : (∀ x ∈ rest, x < w) →
        (rest.Pairwise (· > ·) ↔ ∀ u ∈ rest,
          Relation.ReflTransGen (fun a b => (next a).find? (· ≤ u) = some b) root u) := by
      intro hlt
      refine ih (by simpa using hnd) (by simpa using hall) ?_ htra
      refine forall_mem_append.mpr ⟨fun a ha b hb => hgre a ha b (mem_cons_of_mem _ hb), ?_⟩
      exact forall_mem_singleton.mpr hlt
    rw [pairwise_cons]
    constructor
    · rintro ⟨hlt, hsrt⟩
      refine forall_mem_cons.mpr ⟨hwa w mem_cons_self ?_, (hst hlt).mp hsrt⟩
      exact forall_mem_cons.mpr ⟨le_rfl, fun x hx => le_of_lt (hlt x hx)⟩
    · intro hwal
      obtain ⟨u, hu⟩ : ∃ u, (w :: rest).max? = some u := ⟨_, rfl⟩
      obtain ⟨hu, hmax⟩ := max?_eq_some_iff.mp hu
      have hw' : (next w).find? (· ≤ u) = none := by
        rw [← hsm u hu hmax]
        simpa using hw
      have hend : ∀ {x y}, (next x).find? (· ≤ u) = none →
          Relation.ReflTransGen (fun a b => (next a).find? (· ≤ u) = some b) x y → x = y := by
        intro x y hx hpt
        rcases hpt.cases_head with rfl | ⟨z, hz, -⟩
        · rfl
        rw [hx] at hz
        cases hz
      obtain rfl : w = u := by
        rcases Relation.ReflTransGen.total_of_right_unique
          (fun a b c hb hc => Option.some.inj (hb.symm.trans hc)) (hwa u hu hmax) (hwal u hu) with h | h
        · exact hend hw' h
        · exact (hend (by simpa using hup u) h).symm
      have hnot := (nodup_cons.mp (nodup_append.mp hnd).2.1).1
      have hlt : ∀ x ∈ rest, x < w := fun x hx =>
        lt_of_le_of_ne (hmax x (mem_cons_of_mem _ hx)) fun h => hnot (h ▸ hx)
      exact ⟨hlt, (hst hlt).mpr (forall_mem_cons.mp hwal).2⟩

variable {known : V → Option (List V)}

def successors (known : V → Option (List V)) (v : V) : List V := (known v).getD []

/-- One pass over the frontier. The vertices of a frontier come with the one they were found
from. -/
def visitFrontier [DecidableEq V] (known : V → Option (List V)) :
    List (V × Option V) → List V → List (V × Option V) →
      Except (V × Option V) (List V × List (V × Option V))
  | [], visited, found => .ok (visited, found)
  | (v, source) :: rest, visited, found =>
    if v ∈ visited then visitFrontier known rest visited found
    else
      match known v with
      | none => .error (v, source)
      | some next => visitFrontier known rest (visited ++ [v]) (found ++ next.map (·, some v))

inductive Halt (V : Type) where
  | unknown (v : V) (source : Option V)
  | outOfFuel
  deriving DecidableEq

def bfs [DecidableEq V] (known : V → Option (List V)) : ℕ → List (V × Option V) → List V →
    Except (Halt V) (List V)
  | _, [], visited => .ok visited
  | 0, _ :: _, _ => .error .outOfFuel
  | fuel + 1, n :: frontier, visited =>
    match visitFrontier known (n :: frontier) visited [] with
    | .error (v, source) => .error (.unknown v source)
    | .ok (visited, found) => bfs known fuel found visited

/-- Everything visited is reachable, and what is reachable in one step from it is visited or on
one of the two frontiers. -/
structure Visiting (known : V → Option (List V)) (vertices targets : List V)
    (frontier : List (V × Option V)) (visited : List V) : Prop where
  nodup : visited.Nodup
  bounded : ∀ v ∈ visited, v ∈ vertices
  reachable : ∀ v ∈ visited, ∃ t ∈ targets, Relation.ReflTransGen (Edge (successors known)) t v
  frontier_reachable : ∀ n ∈ frontier, ∃ t ∈ targets,
    Relation.ReflTransGen (Edge (successors known)) t n.1
  closed : ∀ v ∈ visited, ∀ c ∈ successors known v, c ∈ visited ∨ c ∈ frontier.map Prod.fst
  targets_covered : ∀ t ∈ targets, t ∈ visited ∨ t ∈ frontier.map Prod.fst

variable {vertices targets visited : List V}

variable {frontier : List (V × Option V)}

theorem Visiting.skip (h : Visiting known vertices targets (n :: frontier) visited)
    (hn : n.1 ∈ visited) : Visiting known vertices targets frontier visited := by
  have hmov : ∀ c, c ∈ visited ∨ c ∈ (n :: frontier).map Prod.fst →
      c ∈ visited ∨ c ∈ frontier.map Prod.fst := by
    rintro c (hc | hc)
    · exact .inl hc
    · rcases mem_cons.mp hc with rfl | hc
      · exact .inl hn
      · exact .inr hc
  exact { h with
    frontier_reachable := (forall_mem_cons.mp h.frontier_reachable).2
    closed := fun v hv c hc => hmov c (h.closed v hv c hc)
    targets_covered := fun t ht => hmov t (h.targets_covered t ht) }

theorem Visiting.visit {next : List V}
    (h : Visiting known vertices targets ((v, src) :: frontier) visited) (hv : v ∉ visited)
    (hknown : known v = some next) (hver : v ∈ vertices) :
    Visiting known vertices targets (frontier ++ next.map (·, some v)) (visited ++ [v]) := by
  have hsuc : successors known v = next := by rw [successors, hknown, Option.getD_some]
  have hnms : (frontier ++ next.map fun c => (c, some v)).map Prod.fst =
      frontier.map Prod.fst ++ next := by simp [Function.comp_def]
  obtain ⟨hrea, hrs⟩ := forall_mem_cons.mp h.frontier_reachable
  have hmov : ∀ c, c ∈ visited ∨ c ∈ ((v, src) :: frontier).map Prod.fst →
      c ∈ visited ++ [v] ∨ c ∈ frontier.map Prod.fst ++ next := by
    intro c hc
    simp only [map_cons, mem_cons, mem_append] at hc ⊢
    tauto
  constructor
  · exact nodup_append_comm.mp (nodup_cons.mpr ⟨hv, h.nodup⟩)
  · exact forall_mem_append.mpr ⟨h.bounded, forall_mem_singleton.mpr hver⟩
  · exact forall_mem_append.mpr ⟨h.reachable, forall_mem_singleton.mpr hrea⟩
  · refine forall_mem_append.mpr ⟨hrs, forall_mem_map.mpr fun c hc => ?_⟩
    obtain ⟨t, ht, hpt⟩ := hrea
    exact ⟨t, ht, hpt.tail (by rwa [Edge, hsuc])⟩
  · rw [hnms]
    refine forall_mem_append.mpr ⟨fun w hw c hc => hmov c (h.closed w hw c hc),
      forall_mem_singleton.mpr fun c hc => ?_⟩
    rw [hsuc] at hc
    exact .inr (mem_append_right _ hc)
  · intro t ht
    rw [hnms]
    exact hmov t (h.targets_covered t ht)

theorem visitFrontier_known [DecidableEq V]
    (h : visitFrontier known frontier visited found = .ok (visited', found'))
    (hvis : ∀ v ∈ visited, (known v).isSome = true) :
    (∀ n ∈ frontier, (known n.1).isSome = true) := by
  revert h
  fun_induction visitFrontier known frontier visited found with
  | case1 => simp
  | case2 _ _ _ _ _ hv ih => exact fun h => forall_mem_cons.mpr ⟨hvis _ hv, ih hvis h⟩
  | case3 => nofun
  | case4 v _ _ _ _ _ next hnx ih =>
    have hso : (known v).isSome = true := by rw [hnx, Option.isSome_some]
    intro h
    exact forall_mem_cons.mpr ⟨hso,
      ih (forall_mem_append.mpr ⟨hvis, forall_mem_singleton.mpr hso⟩) h⟩

theorem bfs_targets_known [DecidableEq V]
    (h : bfs known (fuel + 1) (targets.map (·, none)) [] = .ok visited) :
    ∀ t ∈ targets, (known t).isSome = true := by
  cases targets with
  | nil => simp
  | cons t rest =>
    rw [map_cons, bfs] at h
    cases hrun : visitFrontier known ((t, none) :: rest.map (·, none)) [] [] with
    | error stop =>
      rw [hrun] at h
      cases h
    | ok res =>
      intro u hu
      refine visitFrontier_known (hrun.trans rfl) (by simp) (u, none) ?_
      simpa using hu

variable [DecidableEq V]
  (hknown : ∀ v ∈ vertices, ∃ next, known v = some next ∧ ∀ c ∈ next, c ∈ vertices)

include hknown

theorem visitFrontier_ok {frontier found : List (V × Option V)} {visited : List V}
    (hfro : ∀ n ∈ frontier ++ found, n.1 ∈ vertices)
    (h : Visiting known vertices targets (frontier ++ found) visited) :
    ∃ visited' found', visitFrontier known frontier visited found = .ok (visited', found') ∧
      Visiting known vertices targets found' visited' ∧ (∀ n ∈ found', n.1 ∈ vertices) ∧
      (visited.length < visited'.length ∨ visited' = visited ∧ found' = found) := by
  induction frontier generalizing visited found with
  | nil => exact ⟨visited, found, rfl, h, hfro, .inr ⟨rfl, rfl⟩⟩
  | cons n rest ih =>
    obtain ⟨v, src⟩ := n
    rw [visitFrontier]
    by_cases hv : v ∈ visited
    · rw [if_pos hv]
      exact ih (forall_mem_cons.mp hfro).2 (h.skip hv)
    rw [if_neg hv]
    have hver := hfro (v, src) (by simp)
    obtain ⟨next, hnx, hbd⟩ := hknown v hver
    rw [hnx]
    have hfro' : ∀ m ∈ rest ++ (found ++ next.map (·, some v)), m.1 ∈ vertices := by
      rw [← append_assoc]
      exact forall_mem_append.mpr ⟨(forall_mem_cons.mp hfro).2, forall_mem_map.mpr hbd⟩
    obtain ⟨visited', found', hrun, hvg, hfnd, hgro⟩ :=
      ih hfro' (by
        rw [← append_assoc]
        exact h.visit hv hnx hver)
    refine ⟨visited', found', hrun, hvg, hfnd, .inl ?_⟩
    rcases hgro with hlt | ⟨rfl, -⟩
    · rw [length_append] at hlt
      exact lt_of_le_of_lt (Nat.le_add_right _ _) hlt
    · simp

theorem bfs_ok (fuel : ℕ) (hfro : ∀ n ∈ frontier, n.1 ∈ vertices)
    (h : Visiting known vertices targets frontier visited)
    (hfu : vertices.length < fuel + visited.length) :
    ∃ visited', bfs known fuel frontier visited = .ok visited' ∧
      Visiting known vertices targets [] visited' := by
  induction fuel generalizing frontier visited with
  | zero =>
    have := (subperm_of_subset h.nodup h.bounded).length_le
    omega
  | succ fuel ih =>
    cases frontier with
    | nil => exact ⟨visited, by rw [bfs], h⟩
    | cons n rest =>
      obtain ⟨visited', fnd', hrun, hvg, hfnd, hgro⟩ :=
        @visitFrontier_ok _ _ _ targets _ hknown (n :: rest) [] visited (by simpa using hfro)
          (by simpa using h)
      rw [bfs, hrun]
      rcases hgro with hlt | ⟨-, rfl⟩
      · exact ih hfnd hvg (by omega)
      · exact ⟨visited', by cases fuel <;> rfl, hvg⟩

theorem bfs_reachable (htgt : ∀ t ∈ targets, t ∈ vertices) :
    ∃ visited, bfs known (vertices.length + 1) (targets.map (·, none)) [] = .ok visited ∧
      ∀ v, v ∈ visited ↔ ∃ t ∈ targets, Relation.ReflTransGen (Edge (successors known)) t v := by
  have hst : Visiting known vertices targets (targets.map (·, none)) [] := by
    refine ⟨nodup_nil, by simp, by simp, ?_, by simp, ?_⟩
    · exact forall_mem_map.mpr fun t ht => ⟨t, ht, .refl⟩
    · intro t ht
      exact .inr (by simpa using ht)
  have hfro : ∀ n ∈ targets.map (fun t => (t, (none : Option V))), n.1 ∈ vertices := by
    exact forall_mem_map.mpr fun t ht => htgt t ht
  obtain ⟨visited, hrun, h⟩ := bfs_ok hknown (vertices.length + 1) hfro hst (by simp)
  refine ⟨visited, hrun, fun v => ⟨h.reachable v, ?_⟩⟩
  rintro ⟨t, ht, hpt⟩
  induction hpt with
  | refl => exact (h.targets_covered t ht).elim id (by simp)
  | tail _ hed ih => exact (h.closed _ ih _ hed).elim id (by simp)

end GraphSearch
