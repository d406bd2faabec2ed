import Sourcegraph.GoStrings
import Sourcegraph.MapEntries

/-! # Rebalancing of indexed repositories

Each indexed-search server asks which repositories to index. It keeps those that it should drop
until the server they are assigned to has indexed them. -/
namespace IndexRebalancing

open List

structure MinimalRepo where
  id : Int32
  name : String
  deriving DecidableEq

inductive Fault where
  | multipleEndpoints (hostname : String) (eps : List String)
  | endpointNotFound (hostname : String) (eps : List String)
  | lookup (message : String)
  deriving DecidableEq

structure EndpointMap where
  endpoints : Except Fault (List String)
  get : String → Except Fault String

/-- The set of repositories that a server has indexed, by the identifiers of its wire format. -/
abbrev IndexedSet := UInt32 → Bool

structure Indexers where
  map : Option EndpointMap
  indexed : String → IndexedSet

def holds (s : IndexedSet) (r : MinimalRepo) : Bool := s r.id.toUInt32

/-- A hostname may leave out the domain and the port of the endpoint. -/
def matchesHost (hostname ep : String) : Bool :=
  hostname.toList.isPrefixOf ep.toList &&
    match ep.toList.drop hostname.length with
    | [] => true
    | c :: _ => c = '.' || c = ':'

def findEndpointFrom (eps : List String) (hostname : String) :
    String → List String → Except Fault String
  | endpoint, [] =>
    if endpoint ≠ "" then .ok endpoint else .error (.endpointNotFound hostname eps)
  | endpoint, ep :: rest =>
    if !matchesHost hostname ep then findEndpointFrom eps hostname endpoint rest
    else if endpoint ≠ "" then .error (.multipleEndpoints hostname eps)
    else findEndpointFrom eps hostname ep rest

def findEndpoint (eps : List String) (hostname : String) : Except Fault String :=
  findEndpointFrom eps hostname "" eps

abbrev Other := List (String × List MinimalRepo)

def Other.add (other : Other) (assigned : String) (r : MinimalRepo) : Other :=
  MapEntries.update assigned (fun rs => rs.getD [] ++ [r]) other

/-- The subset is the first `used` elements of the array, which is the one of the input. -/
structure Slices where
  array : List MinimalRepo
  used : ℕ
  other : Other

def Slices.subset (s : Slices) : List MinimalRepo := s.array.take s.used

def Slices.append (s : Slices) (r : MinimalRepo) : Slices :=
  { s with
    array := if s.used < s.array.length then s.array.set s.used r else s.array.take s.used ++ [r]
    used := s.used + 1 }

def scan (m : EndpointMap) (endpoint : String) (indexed : IndexedSet) :
    ℕ → ℕ → Slices → Except Fault Slices
  | 0, _, s => .ok s
  | n + 1, i, s =>
    match s.array[i]? with
    | none => .ok s
    | some r =>
      match m.get r.name with
      | .error e => .error e
      | .ok assigned =>
        scan m endpoint indexed n (i + 1) (if assigned = endpoint then s.append r
          else if holds indexed r then { s with other := s.other.add assigned r }
          else s)

def keepOther (c : Indexers) (s : Slices) (assigned : String) (otherRepos : List MinimalRepo) :
    Slices :=
  otherRepos.foldl (fun s r => if !holds (c.indexed assigned) r then s.append r else s) s

/-- `order` is the iteration over the map of the repositories that are assigned to others. -/
def reposSubset (c : Indexers) (order : Other → Other) (hostname : String) (indexed : IndexedSet)
    (repos : List MinimalRepo) : Except Fault (List MinimalRepo) :=
  match c.map with
  | none => .ok repos
  | some m => do
    let eps ← m.endpoints
    let endpoint ← findEndpoint eps hostname
    let s ← scan m endpoint indexed repos.length 0 ⟨repos, 0, []⟩
    return ((order s.other).foldl (fun s e => keepOther c s e.1 e.2) s).subset

theorem append_spec (s : Slices) (h : s.used ≤ s.array.length) (r : MinimalRepo) :
    (s.append r).subset = s.subset ++ [r] ∧ (s.append r).used ≤ (s.append r).array.length := by
  rw [Slices.append, Slices.subset]
  split
  · rename_i hlt
    rw [take_succ_eq_append_getElem (by simpa using hlt), take_set_of_le (Nat.le_refl _),
      getElem_set_self, length_set]
    exact ⟨rfl, hlt⟩
  have hlen : (s.array.take s.used ++ [r]).length = s.used + 1 := by simp [h]
  rw [← hlen, take_length]
  exact ⟨rfl, Nat.le_refl _⟩

def stays (m : EndpointMap) (endpoint : String) (r : MinimalRepo) : Bool :=
  match m.get r.name with
  | .ok assigned => assigned = endpoint
  | .error _ => false

/-- `g` says which of the repositories indexed here are kept for the others. -/
def lingers (m : EndpointMap) (endpoint : String) (indexed : IndexedSet)
    (g : String → MinimalRepo → Bool) (r : MinimalRepo) : Bool :=
  match m.get r.name with
  | .ok assigned => assigned ≠ endpoint && holds indexed r && g assigned r
  | .error _ => false

def Other.flatten (other : Other) (g : String → MinimalRepo → Bool) : List MinimalRepo :=
  other.flatMap fun e => e.2.filter (g e.1)

theorem flatten_add (other : Other) (asg : String) (r : MinimalRepo)
    (g : String → MinimalRepo → Bool) :
    ((other.add asg r).flatten g).Perm (other.flatten g ++ [r].filter (g asg)) := by
  rw [Other.flatten, Other.flatten, Other.add]
  fun_induction MapEntries.update with
  | case1 => simp
  | case2 =>
    rw [flatMap_cons, flatMap_cons, filter_append, append_assoc, append_assoc]
    exact perm_append_comm.append_left _
  | case3 _ _ _ _ ih =>
    rw [flatMap_cons, flatMap_cons, append_assoc]
    exact ih.append_left _

/-- Writing to the array does not change what is still to be read. -/
theorem scan_spec (hus : s.used ≤ i) (hrs : s.array.drop i = rps)
    (hlen : s.used ≤ s.array.length) (h : scan m ep indexed rps.length i s = .ok s') :
    (∀ r ∈ rps, ∃ asg, m.get r.name = .ok asg) ∧ s'.used ≤ s'.array.length ∧
      s'.subset = s.subset ++ rps.filter (stays m ep) ∧
      ∀ g, (s'.other.flatten g).Perm (s.other.flatten g ++ rps.filter (lingers m ep indexed g)) := by
  induction rps generalizing i s with
  | nil =>
    cases h
    simp [hlen]
  | cons r rps ih =>
    have hr : s.array[i]? = some r := by
      rw [← Nat.add_zero i, ← getElem?_drop, hrs, getElem?_cons_zero]
    have hlt : i < s.array.length := (List.getElem?_eq_some_iff.mp hr).1
    have hnx : s.array.drop (i + 1) = rps := by
      rw [← drop_drop, hrs, drop_one, tail_cons]
    simp only [length_cons, scan, hr] at h
    cases hget : m.get r.name with
    | error e =>
      rw [hget] at h
      cases h
    | ok asg =>
      simp only [hget] at h
      by_cases hsty : asg = ep
      · rw [if_pos hsty] at h
        obtain ⟨happ, hlen'⟩ := append_spec s hlen r
        have hdr : (s.append r).array.drop (i + 1) = rps := by
          simp only [Slices.append]
          rw [if_pos (by omega), drop_set_of_lt (by omega), hnx]
        obtain ⟨hall, hbd, hsub, hoth⟩ := ih (Nat.succ_le_succ hus) hdr hlen' h
        refine ⟨forall_mem_cons.mpr ⟨⟨asg, hget⟩, hall⟩, hbd, ?_, fun g => ?_⟩
        · rw [hsub, happ, filter_cons, stays, hget]
          simp [hsty]
        · have hnot : lingers m ep indexed g r = false := by simp [lingers, hget, hsty]
          rw [filter_cons_of_neg (by simp [hnot])]
          exact hoth g
      · rw [if_neg hsty] at h
        have hnot : stays m ep r = false := by simp [stays, hget, hsty]
        rw [filter_cons_of_neg (by simp [hnot])]
        by_cases hixd : holds indexed r = true
        · rw [if_pos hixd] at h
          obtain ⟨hall, hbd, hsub, hoth⟩ :=
            ih (s := { s with other := s.other.add asg r }) (Nat.le_succ_of_le hus) hnx hlen h
          refine ⟨forall_mem_cons.mpr ⟨⟨asg, hget⟩, hall⟩, hbd, hsub, fun g => ?_⟩
          have hlin : lingers m ep indexed g r = g asg r := by
            simp [lingers, hget, hsty, hixd]
          refine (hoth g).trans (((flatten_add s.other asg r g).append_right _).trans ?_)
          rw [append_assoc, filter_cons, filter_cons, hlin]
          split <;> exact .refl _
        · rw [if_neg hixd] at h
          obtain ⟨hall, hbd, hsub, hoth⟩ := ih (Nat.le_succ_of_le hus) hnx hlen h
          refine ⟨forall_mem_cons.mpr ⟨⟨asg, hget⟩, hall⟩, hbd, hsub, fun g => ?_⟩
          rw [filter_cons_of_neg (by simp [lingers, hget, hixd])]
          exact hoth g

theorem subset_foldl_append (rs : List MinimalRepo) (s : Slices) (h : s.used ≤ s.array.length) :
    (rs.foldl Slices.append s).subset = s.subset ++ rs := by
  induction rs generalizing s with
  | nil => exact (append_nil _).symm
  | cons r rs ih =>
    obtain ⟨happ, hlen⟩ := append_spec s h r
    rw [foldl_cons, ih _ hlen, happ, append_assoc, singleton_append]

theorem keepAll_spec (c : Indexers) (other : Other) (s : Slices) (h : s.used ≤ s.array.length) :
    (other.foldl (fun s e => keepOther c s e.1 e.2) s).subset =
      s.subset ++ other.flatten fun asg r => !holds (c.indexed asg) r := by
  simp only [← subset_foldl_append _ s h, Other.flatten, foldl_flatMap, foldl_filter, keepOther]

/-- What the server with this endpoint should index. -/
def keeps (c : Indexers) (m : EndpointMap) (endpoint : String) (indexed : IndexedSet)
    (r : MinimalRepo) : Bool :=
  stays m endpoint r ||
    lingers m endpoint indexed (fun assigned r => !holds (c.indexed assigned) r) r

theorem filter_or_perm {p : α → Bool} (h : ∀ a, p a = true → p' a = false) (l : List α) :
    (l.filter p ++ l.filter p').Perm (l.filter fun a => p a || p' a) := by
  refine .trans (.of_eq ?_) (filter_append_perm p _)
  rw [filter_filter, filter_filter]
  congr 2 <;> funext a <;> have := h a <;> cases hp : p a <;> simp_all

theorem reposSubset_spec (hmap : c.map = some m) {ord : Other → Other}
    (hord : ∀ other, (ord other).Perm other)
    (h : reposSubset c ord hostname indexed rps = .ok subs) :
    ∃ ep, m.endpoints.bind (findEndpoint · hostname) = .ok ep ∧
      (∀ r ∈ rps, ∃ asg, m.get r.name = .ok asg) ∧ subs.Perm (rps.filter (keeps c m ep indexed)) := by
  simp only [reposSubset, hmap] at h
  obtain ⟨eps, heps, h⟩ := GoStrings.bind_eq_ok h
  obtain ⟨ep, hend, h⟩ := GoStrings.bind_eq_ok h
  obtain ⟨s, hs, h⟩ := GoStrings.bind_eq_ok h
  cases h
  obtain ⟨hall, hbd, hsub, hoth⟩ :=
    scan_spec (s := ⟨rps, 0, []⟩) (Nat.le_refl 0) rfl (Nat.zero_le _) hs
  refine ⟨ep, by rw [heps]; exact hend, hall, ?_⟩
  have hkp : ((ord s.other).flatten fun a r => !holds (c.indexed a) r).Perm
      (rps.filter (lingers m ep indexed fun a r => !holds (c.indexed a) r)) :=
    ((hord s.other).flatMap_right _).trans (hoth fun a r => !holds (c.indexed a) r)
  rw [keepAll_spec c _ s hbd, hsub]
  refine (hkp.append_left _).trans (filter_or_perm (fun r hr => ?_) rps)
  rw [stays] at hr
  rw [lingers]
  split at hr
  · simp [of_decide_eq_true hr]
  · cases hr

/-- One server asks for its repositories and indexes them. `failing` are the endpoints whose sets
cannot be fetched. -/
structure Round where
  hostname : String
  repos : List MinimalRepo
  order : Other → Other
  failing : String → Bool
  order_perm : ∀ other, (order other).Perm other

abbrev Cluster := String → IndexedSet

def Round.indexers (round : Round) (m : EndpointMap) (s : Cluster) : Indexers :=
  ⟨some m, fun e => if round.failing e then fun _ => false else s e⟩

def Round.answer (round : Round) (m : EndpointMap) (s : Cluster) (endpoint : String) :
    Except Fault (List MinimalRepo) :=
  reposSubset (round.indexers m s) round.order round.hostname (s endpoint) round.repos

/-- A server whose request fails keeps its set. -/
def step (m : EndpointMap) (s : Cluster) (round : Round) : Cluster :=
  match m.endpoints.bind (findEndpoint · round.hostname) with
  | .error _ => s
  | .ok endpoint =>
    match round.answer m s endpoint with
    | .error _ => s
    | .ok subset =>
      Function.update s endpoint fun id => subset.any fun r => r.id.toUInt32 = id

def Indexed (s : Cluster) (r : MinimalRepo) : Prop := ∃ endpoint, holds (s endpoint) r = true

theorem step_indexed {rou : Round} (hr : r ∈ rou.repos) (h : Indexed s r) :
    Indexed (step m s rou) r := by
  rw [step]
  split
  · exact h
  rename_i ep hend
  split
  · exact h
  rename_i subs hsub
  obtain ⟨ep', hend', hall, hpm⟩ :=
    reposSubset_spec rfl rou.order_perm hsub
  cases hend.symm.trans hend'
  have hels : ∀ e, e ≠ ep → holds (s e) r = true → Indexed (Function.update s
      ep fun id => subs.any fun r => r.id.toUInt32 = id) r :=
    fun e hne he => ⟨e, by rwa [Function.update_of_ne hne]⟩
  have hkp : keeps (rou.indexers m s) m ep (s ep) r = true → Indexed
      (Function.update s ep fun id => subs.any fun r => r.id.toUInt32 = id) r := by
    intro hkee
    refine ⟨ep, ?_⟩
    rw [Function.update_self, holds, any_eq_true]
    exact ⟨r, hpm.mem_iff.mpr (mem_filter.mpr ⟨hr, hkee⟩), decide_eq_true rfl⟩
  obtain ⟨e, he⟩ := h
  by_cases hhe : e = ep
  · subst hhe
    obtain ⟨asg, hget⟩ := hall r hr
    by_cases hsty : asg = e
    · exact hkp (by simp [keeps, stays, hget, hsty])
    by_cases hthe : holds (s asg) r = true
    · exact hels asg hsty hthe
    refine hkp ?_
    have hdr : holds ((rou.indexers m s).indexed asg) r = false := by
      simp only [Round.indexers]
      split
      · rfl
      · exact Bool.eq_false_iff.mpr hthe
    simp [keeps, lingers, hget, hsty, he, hdr]
  · exact hels e hhe he

/-- No run leaves a listed repository unindexed, and each answer has every listed repository that
is assigned to its server and none more often than the list. -/
theorem rebalancing_safe (m : EndpointMap) (s : Cluster) (rounds : List Round) :
    (∀ r, (∀ round ∈ rounds, r ∈ round.repos) → Indexed s r →
      Indexed (rounds.foldl (step m) s) r) ∧
    ∀ (round : Round) (endpoint : String) (subset : List MinimalRepo),
      m.endpoints.bind (findEndpoint · round.hostname) = .ok endpoint →
      round.answer m s endpoint = .ok subset →
      (∀ r ∈ round.repos, m.get r.name = .ok endpoint → r ∈ subset) ∧
      ∀ {β : Type} (key : MinimalRepo → β),
        (round.repos.map key).Nodup → (subset.map key).Nodup := by
  constructor
  · intro r hlst hr
    induction rounds generalizing s with
    | nil => exact hr
    | cons round rounds ih =>
      obtain ⟨hro, hrou⟩ := forall_mem_cons.mp hlst
      exact ih _ hrou (step_indexed hro hr)
  · intro round endpoint subset hend hans
    obtain ⟨endpoint', hend', hall, hpm⟩ := reposSubset_spec rfl round.order_perm hans
    cases hend.symm.trans hend'
    constructor
    · intro r hr hget
      refine hpm.mem_iff.mpr (mem_filter.mpr ⟨hr, ?_⟩)
      simp [keeps, stays, hget]
    · intro β key hnd
      exact (hpm.map key).nodup_iff.mpr (hnd.sublist (filter_sublist.map key))

end IndexRebalancing
