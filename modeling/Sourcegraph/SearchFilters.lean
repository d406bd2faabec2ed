import Sourcegraph.SearchResults

/-! # Search filters

The events of a search contribute to filters, of which the most important ones are presented. What
is stored for a value is taken from its first contribution, except for the count. -/
namespace SearchFilters

open GoStrings SearchResults List

inductive Kind where
  | repo
  | file
  | lang
  | utility
  deriving DecidableEq

structure Filter where
  value : Bytes
  label : Bytes
  count : ℤ
  isLimitHit : Bool
  kind : Kind
  important : Bool := false
  deriving DecidableEq

def Filter.less (f o : Filter) : Bool :=
  if f.important ≠ o.important then f.important
  else if f.count ≠ o.count then f.count > o.count
  else f.value.map UInt8.toNat < o.value.map UInt8.toNat

/-- `filterHeap.Less`. -/
def heapLess (f o : Filter) : Bool := o.less f

/-- The package `container/heap` on a `filterHeap`. -/
structure Heap where
  push : List Filter → Filter → List Filter
  pop : List Filter → List Filter
  Valid : List Filter → Prop
  nil : Valid []
  push_perm : ∀ l f, (push l f).Perm (f :: l)
  push_valid : ∀ l f, Valid l → Valid (push l f)
  pop_perm : ∀ l f, Valid (f :: l) → (pop (f :: l)).Perm l
  pop_valid : ∀ l, Valid l → Valid (pop l)
  root : ∀ l f, Valid (f :: l) → ∀ g ∈ l, heapLess g f = false

/-- The package `sort`. -/
structure Sorter where
  sort : List Filter → List Filter
  perm : ∀ l, (sort l).Perm l
  sorted : ∀ l, (sort l).Pairwise fun f o => o.less f = false

def heapAdd (H : Heap) (max : ℤ) (kept : List Filter) (f : Filter) : List Filter :=
  if kept.length < max then H.push kept f
  else match kept with
    | [] => []
    | g :: rest => if max > 0 && f.less g then H.push (H.pop (g :: rest)) f else g :: rest

structure ComputeOpts where
  maxRepos : ℤ
  maxOther : ℤ

def computeAdd (H : Heap) (opts : ComputeOpts) (heaps : List Filter × List Filter) (f : Filter) :
    List Filter × List Filter :=
  if f.kind = .repo then (heapAdd H opts.maxRepos heaps.1 f, heaps.2)
  else (heaps.1, heapAdd H opts.maxOther heaps.2 f)

def compute (H : Heap) (S : Sorter) (opts : ComputeOpts) (m : List Filter) : List Filter :=
  let heaps := m.foldl (computeAdd H opts) ([], [])
  S.sort (heaps.1 ++ heaps.2)

/-- The smallest filters of a list. -/
structure Smallest (max : ℤ) (l kept : List Filter) : Prop where
  nodup : kept.Nodup
  subset : kept ⊆ l
  length : kept.length = min max.toNat l.length
  less : ∀ f ∈ kept, ∀ g ∈ l, g ∉ kept → f.less g = true

def Filter.key (f : Filter) : Bool ×ₗ ℤ ×ₗ List ℕ :=
  toLex (!f.important, toLex (-f.count, f.value.map UInt8.toNat))

theorem less_iff {f o : Filter} : f.less o = true ↔ f.key < o.key := by
  rw [Filter.key, Filter.key, Prod.Lex.toLex_lt_toLex, Prod.Lex.toLex_lt_toLex, Filter.less]
  by_cases hi : f.important = o.important
  · by_cases hc : f.count = o.count
    · simp [hi, hc]
    · simp [hi, hc]
  · cases hf : f.important <;> simp_all

theorem less_false_iff {f o : Filter} : f.less o = false ↔ o.key ≤ f.key := by
  rw [← not_lt, ← less_iff, Bool.not_eq_true]

/-- Filters of different values. -/
def Distinct (l : List Filter) : Prop := (l.map Filter.value).Nodup

theorem Distinct.less (h : Distinct l) (hf : f ∈ l) (hg : g ∈ l) (hle : f.key ≤ g.key)
    (hne : f ≠ g) : f.less g = true := by
  refine less_iff.mpr (lt_of_le_of_ne hle fun heq => hne (inj_on_of_nodup_map h hf hg ?_))
  have hval := congrArg (fun k => (ofLex (ofLex k).2).2) heq
  exact map_injective_iff.mpr (fun _ _ => UInt8.toNat_inj.mp) hval

theorem Smallest.add {max : ℤ} (hd : Distinct (f :: l)) (hv : H.Valid kept)
    (h : Smallest max l kept) :
    H.Valid (heapAdd H max kept f) ∧ Smallest max (f :: l) (heapAdd H max kept f) := by
  have hf : f ∉ l := (nodup_cons.mp hd.of_map).1
  have hlen := h.length
  unfold heapAdd
  by_cases hro : kept.length < max
  · rw [if_pos hro]
    have hpm : kept.Perm l := (h.nodup.subperm h.subset).perm_of_length_le (by omega)
    have hpu := (H.push_perm kept f).trans (hpm.cons f)
    refine ⟨H.push_valid _ _ hv, hpu.nodup_iff.mpr hd.of_map, hpu.subset, ?_, ?_⟩
    · rw [hpu.length_eq, length_cons]
      omega
    · exact fun _ _ g hg hout => absurd (hpu.mem_iff.mpr hg) hout
  · rw [if_neg hro]
    cases kept with
    | nil =>
      rw [length_nil] at hro
      exact ⟨hv, nodup_nil, nil_subset _, by rw [length_nil]; omega, by simp⟩
    | cons g rest =>
      have hrt : ∀ x ∈ g :: rest, x.key ≤ g.key := forall_mem_cons.mpr
        ⟨le_refl _, fun x hx => less_false_iff.mp (H.root _ _ hv x hx)⟩
      have hge : ∀ y ∈ l, y = g ∨ y ∉ g :: rest → g.key ≤ y.key := fun y hy hor =>
        hor.elim (fun he => he ▸ le_refl _)
          fun hout => le_of_lt (less_iff.mp (h.less g mem_cons_self y hy hout))
      rw [length_cons] at hlen hro
      dsimp only
      split
      · rename_i hle
        rw [Bool.and_eq_true, less_iff] at hle
        have hpu := (H.push_perm (H.pop (g :: rest)) f).trans ((H.pop_perm _ _ hv).cons f)
        have hsub : rest ⊆ l := fun x hx => h.subset (mem_cons_of_mem g hx)
        refine ⟨H.push_valid _ _ (H.pop_valid _ hv), ?_, ?_, ?_, ?_⟩
        · exact hpu.nodup_iff.mpr (nodup_cons.mpr ⟨fun hm => hf (hsub hm), h.nodup.of_cons⟩)
        · exact fun x hx => (mem_cons.mp (hpu.subset hx)).elim (fun he => he ▸ mem_cons_self)
            fun hx => mem_cons_of_mem f (hsub hx)
        · rw [hpu.length_eq, length_cons, length_cons]
          omega
        · intro x hx y hy hout
          rw [hpu.mem_iff, mem_cons] at hx hout
          rw [not_or] at hout
          have hyl := (mem_cons.mp hy).resolve_left hout.1
          have hgy := hge y hyl (by rw [mem_cons]; tauto)
          rcases hx with rfl | hx
          · exact less_iff.mpr (lt_of_lt_of_le hle.2 hgy)
          exact Distinct.less hd (mem_cons_of_mem f (hsub hx)) hy
            ((hrt x (mem_cons_of_mem g hx)).trans hgy) fun he => hout.2 (he ▸ hx)
      · rename_i hle
        refine ⟨hv, h.nodup, fun x hx => mem_cons_of_mem f (h.subset hx), ?_, ?_⟩
        · rw [length_cons, length_cons]
          omega
        · intro x hx y hy hout
          rcases mem_cons.mp hy with rfl | hyl
          · have hgf : g.key ≤ y.key := by
              rw [← less_false_iff]
              simpa [show 0 < max by omega] using hle
            exact Distinct.less hd (mem_cons_of_mem y (h.subset hx)) hy
              ((hrt x hx).trans hgf) fun he => hout (he ▸ hx)
          · exact h.less x hx y hyl hout

theorem Smallest.perm {max : ℤ} (h : Smallest max l kept) (hp : l.Perm l') : Smallest max l' kept :=
  ⟨h.nodup, fun _ hf => hp.subset (h.subset hf), hp.length_eq ▸ h.length,
    fun f hf g hg => h.less f hf g (hp.mem_iff.mpr hg)⟩

theorem foldl_smallest (H : Heap) (max : ℤ) (hd : Distinct m) :
    H.Valid (m.foldl (heapAdd H max) []) ∧ Smallest max m (m.foldl (heapAdd H max) []) := by
  induction m using reverseRecOn with
  | nil => exact ⟨H.nil, nodup_nil, nil_subset _, by simp, by simp⟩
  | append_singleton m f ih =>
    have hpm := (perm_append_singleton f m).symm
    have hd' : Distinct (f :: m) := (hpm.map _).nodup_iff.mpr hd
    obtain ⟨hv, h⟩ := ih (nodup_cons.mp hd').2
    rw [foldl_append]
    obtain ⟨hv', h'⟩ := Smallest.add hd' hv h
    exact ⟨hv', h'.perm hpm⟩

theorem Smallest.unique {max : ℤ} (h : Smallest max l kept) (h' : Smallest max l kept') :
    kept.Perm kept' := by
  have hlen : kept'.length = kept.length := h'.length.trans h.length.symm
  refine (h.nodup.subperm fun f hf => ?_).perm_of_length_le hlen.le
  by_contra hout
  -- Something else is kept in its place, and each of the two would have to be less.
  obtain ⟨g, hg, hgo⟩ : ∃ g ∈ kept', g ∉ kept := by
    by_contra hall
    push Not at hall
    have hpm := (h'.nodup.subperm hall).perm_of_length_le hlen.ge
    exact hout (hpm.mem_iff.mpr hf)
  have hlt := less_iff.mp (h.less f hf g (h'.subset hg) hgo)
  exact lt_asymm hlt (less_iff.mp (h'.less g hg f (h.subset hf) hout))

theorem foldl_computeAdd (m : List Filter) (heaps : List Filter × List Filter) :
    m.foldl (computeAdd H opts) heaps =
      ((m.filter (·.kind = .repo)).foldl (heapAdd H opts.maxRepos) heaps.1,
        (m.filter (·.kind ≠ .repo)).foldl (heapAdd H opts.maxOther) heaps.2) := by
  induction m generalizing heaps with
  | nil => rfl
  | cons f m ih =>
    rw [foldl_cons, ih, computeAdd]
    by_cases hk : f.kind = .repo <;> simp [hk]

/-- The most important filters of both groups are returned in order, whatever the order of the
iteration. -/
theorem compute_selects (H : Heap) (S : Sorter) (opts : ComputeOpts) {m : List Filter}
    (hd : (m.map Filter.value).Nodup) :
    (∃ repos other, Smallest opts.maxRepos (m.filter (·.kind = .repo)) repos ∧
      Smallest opts.maxOther (m.filter (·.kind ≠ .repo)) other ∧
      (compute H S opts m).Perm (repos ++ other)) ∧
    (compute H S opts m).Pairwise (fun f o => o.less f = false) ∧
    ∀ m', m'.Perm m → compute H S opts m' = compute H S opts m := by
  have hgr : ∀ (m' : List Filter) (p : Filter → Bool) max, m'.Perm m →
      Smallest max (m.filter p) ((m'.filter p).foldl (heapAdd H max) []) := fun m' p max hp =>
    (foldl_smallest H max (((hp.map _).nodup_iff.mpr hd).sublist (filter_sublist.map _))).2.perm
      (hp.filter p)
  have hpm : ∀ m', m'.Perm m → (compute H S opts m').Perm
      ((m.filter (·.kind = .repo)).foldl (heapAdd H opts.maxRepos) [] ++
        (m.filter (·.kind ≠ .repo)).foldl (heapAdd H opts.maxOther) []) := by
    intro m' hp
    rw [compute, foldl_computeAdd]
    exact (S.perm _).trans (((hgr m' _ _ hp).unique (hgr m _ _ (.refl m))).append
      ((hgr m' _ _ hp).unique (hgr m _ _ (.refl m))))
  refine ⟨⟨_, _, hgr m _ _ (.refl m), hgr m _ _ (.refl m), hpm m (.refl m)⟩, S.sorted _, ?_⟩
  intro m' hp
  have hsub : ∀ f ∈ compute H S opts m, f ∈ m := by
    intro f hf
    rcases mem_append.mp ((hpm m (.refl m)).subset hf) with hf | hf
    · exact mem_of_mem_filter ((hgr m _ _ (.refl m)).subset hf)
    · exact mem_of_mem_filter ((hgr m _ _ (.refl m)).subset hf)
  have heq := (hpm m' hp).trans (hpm m (.refl m)).symm
  refine heq.eq_of_pairwise (fun f g hf hg hle hle' => ?_) (S.sorted _) (S.sorted _)
  by_contra hne
  have hlt := Distinct.less hd (hsub f (heq.subset hf)) (hsub g hg) (less_false_iff.mp hle) hne
  rw [hlt] at hle'
  cases hle'

theorem mergeSort_sorted (l : List Filter) :
    (l.mergeSort fun f o => !o.less f).Pairwise fun f o => o.less f = false := by
  refine (pairwise_mergeSort ?_ ?_ l).imp fun h => by simpa using h
  · intro f g o hfg hgo
    rw [Bool.not_eq_true', less_false_iff] at hfg hgo ⊢
    exact hfg.trans hgo
  · intro f o
    rw [Bool.or_eq_true, Bool.not_eq_true', Bool.not_eq_true', less_false_iff, less_false_iff]
    exact le_total _ _

def listSorter : Sorter where
  sort l := l.mergeSort fun f o => !o.less f
  perm l := l.mergeSort_perm _
  sorted := mergeSort_sorted

def listHeap : Heap where
  push l f := (listSorter.sort (f :: l)).reverse
  pop := tail
  Valid l := l.Pairwise fun f o => heapLess o f = false
  nil := .nil
  push_perm _ _ := (reverse_perm _).trans (mergeSort_perm _ _)
  push_valid _ _ _ := pairwise_reverse.mpr (mergeSort_sorted _)
  pop_perm l _ _ := .refl l
  pop_valid _ := Pairwise.tail
  root _ _ h := (pairwise_cons.mp h).1

def twoRepos : List Filter :=
  [⟨[97], [97], 1, false, .repo, true⟩, ⟨[98], [98], 2, true, .repo, true⟩]

theorem two_repos_selected : compute listHeap listSorter ⟨1, 1⟩ twoRepos.reverse =
    compute listHeap listSorter ⟨1, 1⟩ twoRepos :=
  (compute_selects listHeap listSorter ⟨1, 1⟩ (by decide)).2.2 _ (reverse_perm _)

/-- The packages `regexp`, `path`, `strconv`, `strings` and `inventory`. -/
structure Packages where
  quoteMeta : Bytes → Bytes
  matchString : String → Bytes → Bool
  ext : Bytes → Bytes
  getLanguageByFilename : Bytes → Bytes
  toLower : Bytes → Bytes
  quote : Bytes → Bytes

/-- The labels, regular expressions and filters of the common file filters. -/
def commonFileFilters : List (String × String × String) :=
  [("Exclude Go tests", "_test\\.go$", "-file:_test\\.go$"),
    ("Exclude Go vendor", "(^|/)vendor/", "-file:(^|/)vendor/"),
    ("Exclude node_modules", "(^|/)node_modules/", "-file:(^|/)node_modules/"),
    ("Exclude minified JavaScript", "\\.min\\.js$", "-file:\\.min\\.js$"),
    ("Exclude JavaScript maps", "\\.js\\.map$", "-file:\\.js\\.map$")]

/-- A call of `Add`, for the utility filters followed by one of `MarkImportant`. -/
structure Contribution where
  value : Bytes
  label : Bytes
  count : Int32
  limitHit : Bool
  kind : Kind
  important : Bool := false

section Update

variable (P : Packages) (event : SearchEvent)

def repoFilter (repoName : Bytes) (repoID : ℤ) (rev : Bytes) (lineMatchCount : Int32) :
    Contribution :=
  let filter := bytes "repo:^" ++ P.quoteMeta repoName ++ bytes "$"
  ⟨if rev ≠ [] then filter ++ bytes "@" ++ rev else filter, repoName, lineMatchCount,
    ((event.stats.status.lookup repoID).getD 0).testBit 2, .repo, false⟩

def fileFilters (path : Bytes) (lineMatchCount : Int32) (limitHit : Bool) : List Contribution :=
  (commonFileFilters.filter fun ff => P.matchString ff.2.1 path).map fun ff =>
    ⟨bytes ff.2.2, bytes ff.1, lineMatchCount, limitHit, .file, false⟩

def langFilter (path : Bytes) (lineMatchCount : Int32) (limitHit : Bool) : List Contribution :=
  let rawLanguage := P.getLanguageByFilename path
  let language := P.toLower rawLanguage
  if P.ext path = [] ∨ language = [] then []
  else [⟨bytes "lang:" ++ (if 32 ∈ language then P.quote language else language), rawLanguage,
    lineMatchCount, limitHit, .lang, false⟩]

def utilityFilter (value label : String) (excluded : ℤ) : List Contribution :=
  if excluded > 0 then
    [⟨bytes value, bytes label, Int32.ofInt excluded, event.stats.isLimitHit, .utility, true⟩]
  else []

def matchFilters : Match → List Contribution
  | .file v =>
    let lines := Int32.ofNat v.resultCount
    repoFilter P event v.file.repo.name v.file.repo.id (v.file.inputRev.getD []) lines ::
      langFilter P v.file.path lines v.limitHit ++ fileFilters P v.file.path lines v.limitHit
  | .repo v => [repoFilter P event v.name v.id [] 1]
  | .commit v => [repoFilter P event v.repo.name v.repo.id [] (Int32.ofNat v.resultCount)]
  | _ => []

/-- What `Update` adds for an event. -/
def contributions : List Contribution :=
  utilityFilter event "fork:yes" "Include forked repos" event.stats.excludedForks ++
    utilityFilter event "archived:yes" "Include archived repos" event.stats.excludedArchived ++
    event.results.flatMap (matchFilters P event)

end Update

abbrev Filters := AList fun _ : Bytes => Filter

def Filters.add (m : Filters) (c : Contribution) : Filters :=
  match m.lookup c.value with
  | none => m.insert c.value ⟨c.value, c.label, c.count.toInt, c.limitHit, c.kind, c.important⟩
  | some sf => m.insert c.value
      { sf with count := sf.count + c.count.toInt, important := sf.important || c.important }

def update (P : Packages) (m : Filters) (event : SearchEvent) : Filters :=
  (contributions P event).foldl Filters.add m

def updates (P : Packages) (events : List SearchEvent) : Filters := events.foldl (update P) ∅

/-- The contributions to a value, in order. -/
def contributed (P : Packages) (events : List SearchEvent) (value : Bytes) : List Contribution :=
  (events.flatMap (contributions P)).filter (·.value = value)

theorem lookup_foldl_add (cs : List Contribution) (value : Bytes) :
    (cs.foldl Filters.add ∅).lookup value = (cs.filter (·.value = value)).head?.map fun c =>
      ⟨value, c.label, ((cs.filter (·.value = value)).map fun c => c.count.toInt).sum, c.limitHit,
        c.kind, (cs.filter (·.value = value)).any (·.important)⟩ := by
  induction cs using reverseRecOn with
  | nil => rfl
  | append_singleton cs c ih =>
    rw [foldl_append, foldl_cons, Filters.add, filter_append]
    by_cases hc : c.value = value
    · subst hc
      rw [ih]
      cases cs.filter (·.value = c.value) <;> simp [Int.add_assoc, Bool.or_assoc]
    have hne : value ≠ c.value := fun he => hc he.symm
    split <;> simp [AList.lookup_insert_ne hne, ih, hc]

theorem lookup_updates (P : Packages) (events : List SearchEvent) (value : Bytes) :
    (updates P events).lookup value = (contributed P events value).head?.map fun c =>
      ⟨value, c.label, ((contributed P events value).map fun c => c.count.toInt).sum, c.limitHit,
        c.kind, (contributed P events value).any (·.important)⟩ := by
  rw [contributed, ← lookup_foldl_add, foldl_flatMap]
  rfl

theorem contributed_perm (h : es'.Perm es) (value : Bytes) :
    (contributed P es' value).Perm (contributed P es value) := (h.flatMap_right _).filter _

theorem contributed_cons (event : SearchEvent) (es : List SearchEvent) (value : Bytes) :
    contributed P (event :: es) value = contributed P [event] value ++ contributed P es value := by
  simp [contributed]

theorem contributed_head (h : (contributed P es value).head? = some c) :
    ∃ event ∈ es, (contributed P [event] value).head? = some c := by
  induction es with
  | nil => cases h
  | cons event es ih =>
    rw [contributed_cons, head?_append] at h
    cases hf : (contributed P [event] value).head? with
    | some c' =>
      rw [hf] at h
      exact ⟨event, mem_cons_self, hf.trans h⟩
    | none =>
      rw [hf] at h
      obtain ⟨e, he, hc⟩ := ih h
      exact ⟨e, mem_cons_of_mem event he, hc⟩

/-- Counts and importance do not depend on the order of the events. Limit hits do not iff the first
contribution of every event to a value says whether any contribution hit a limit. -/
theorem order_independent_iff (P : Packages) (events : List SearchEvent) :
    (∀ events', events'.Perm events → ∀ value,
      ((updates P events').lookup value).map (fun f => (f.count, f.important)) =
        ((updates P events).lookup value).map fun f => (f.count, f.important)) ∧
    ((∀ events', events'.Perm events → ∀ value f, (updates P events').lookup value = some f →
      f.isLimitHit = (contributed P events value).any (·.limitHit)) ↔
      ∀ event ∈ events, ∀ value, ∀ c ∈ (contributed P [event] value).head?,
        c.limitHit = (contributed P events value).any (·.limitHit)) := by
  constructor
  · intro events' hp value
    have hpm := @contributed_perm P _ _ hp value
    rw [lookup_updates, lookup_updates, (hpm.map _).sum_eq, hpm.any_eq, Option.map_map,
      Option.map_map]
    cases hcs : contributed P events value with
    | nil =>
      rw [hcs, perm_nil] at hpm
      rw [hpm]
    | cons c cs =>
      have hne : contributed P events' value ≠ [] := fun hnil =>
        cons_ne_nil c cs (hcs ▸ nil_perm.mp (hnil ▸ hpm))
      obtain ⟨c', cs', hcs'⟩ := exists_cons_of_ne_nil hne
      rw [hcs']
      rfl
  constructor
  · intro h event hev value c hc
    obtain ⟨before, after, rfl⟩ := append_of_mem hev
    have hl := lookup_updates P (event :: (before ++ after)) value
    rw [contributed_cons, head?_append, Option.mem_def.mp hc] at hl
    exact h _ perm_middle.symm value _ hl
  · intro h events' hp value f hf
    rw [lookup_updates, Option.map_eq_some_iff] at hf
    obtain ⟨c, hc, rfl⟩ := hf
    obtain ⟨event, hev, hc⟩ := contributed_head hc
    exact h event (hp.subset hev) value c hc

/-- Two events with the same repository, of which the second has its limit hit. -/
def repoTwice : List SearchEvent :=
  [⟨[.repo ⟨bytes "r", 1, [], [], []⟩], {}⟩,
    ⟨[.repo ⟨bytes "r", 1, [], [], []⟩], { status := [(1, 4)] }⟩]

def plainPackages : Packages := ⟨id, fun _ _ => false, id, id, id, id⟩

theorem limit_hit_lost :
    ((updates plainPackages repoTwice).lookup (bytes "repo:^r$")).map Filter.isLimitHit =
        some false ∧
      ((updates plainPackages repoTwice.reverse).lookup (bytes "repo:^r$")).map
        Filter.isLimitHit = some true := by
  decide

end SearchFilters
