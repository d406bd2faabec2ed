import Sourcegraph.BinaryHeap

/-! # The queue of repository updates

Entries are shared between the heap and the index map, so they are kept in a store and both hold
addresses. Sequence numbers are 64-bit. -/
namespace UpdateQueue

open List
open Function (update update_of_ne update_self)
open BinaryHeap (Ordered Around UpOrdered exchange)

structure ConfiguredRepo where
  id : ℤ
  name : String
  deriving DecidableEq

structure RepoUpdate where
  repo : ConfiguredRepo
  priority : ℤ
  seq : ℕ
  updating : Bool
  index : ℤ
  deriving DecidableEq

/-- Channels are numbered by creation; `pending` says which hold a token in their only slot. -/
structure Queue where
  objects : ℕ → RepoUpdate
  allocated : ℕ
  heap : List ℕ
  index : ℤ → Option ℕ
  seq : ℕ
  notifyEnqueue : ℕ
  channels : ℕ
  pending : ℕ → Bool

def initial : Queue :=
  { objects := fun _ => ⟨⟨0, ""⟩, 0, 0, false, 0⟩
    allocated := 0
    heap := []
    index := fun _ => none
    seq := 0
    notifyEnqueue := 0
    channels := 1
    pending := fun _ => false }

def Queue.entry (q : Queue) (i : ℕ) : RepoUpdate := q.objects (q.heap.getD i 0)

def Queue.len (q : Queue) : ℕ := q.heap.length

def Queue.less (q : Queue) (i j : ℕ) : Bool :=
  let qi := q.entry i
  let qj := q.entry j
  if qi.updating != qj.updating then qj.updating
  else if qi.priority != qj.priority then decide (qi.priority > qj.priority)
  else decide (qi.seq < qj.seq)

def Queue.modify (q : Queue) (a : ℕ) (f : RepoUpdate → RepoUpdate) : Queue :=
  { q with objects := update q.objects a (f (q.objects a)) }

def setIndex (i : ℤ) (u : RepoUpdate) : RepoUpdate := { u with index := i }

def Queue.swap (q : Queue) (i j : ℕ) : Queue :=
  let ai := q.heap.getD i 0
  let aj := q.heap.getD j 0
  ({ q with heap := (q.heap.set i aj).set j ai }.modify aj (setIndex i)).modify ai (setIndex j)

/-- The number is drawn and the counter advanced at once. -/
def nextSeq (seq : ℕ) : ℕ := (seq + 1) % 2 ^ 64

def Queue.push (q : Queue) (item : RepoUpdate) : Queue :=
  { q with
    objects := update q.objects q.allocated
      { item with index := q.heap.length, seq := nextSeq q.seq }
    allocated := q.allocated + 1
    heap := q.heap ++ [q.allocated]
    index := update q.index item.repo.id (some q.allocated)
    seq := nextSeq q.seq }

def Queue.pop (q : Queue) : Queue :=
  let item := q.heap.getD (q.heap.length - 1) 0
  { q.modify item (setIndex (-1)) with
    heap := q.heap.dropLast
    index := update q.index (q.objects item).repo.id none }

def heapInterface : BinaryHeap.Interface Queue := ⟨Queue.len, Queue.less, Queue.swap⟩

def Queue.heapPush (q : Queue) (item : RepoUpdate) : Queue :=
  let q := q.push item
  BinaryHeap.up heapInterface (q.len - 1) q (q.len - 1)

def Queue.heapFix (q : Queue) (i : ℤ) : Queue := BinaryHeap.fix heapInterface q i.toNat

def Queue.heapRemove (q : Queue) (i : ℤ) : Queue :=
  let n := q.len - 1
  let q := if n ≠ i.toNat then BinaryHeap.sift heapInterface n (q.swap i.toNat n) i.toNat else q
  q.pop

/-- A send that is dropped when the slot is taken. -/
def Queue.notify (q : Queue) : Queue :=
  { q with pending := update q.pending q.notifyEnqueue true }

def Queue.reset (q : Queue) : Queue :=
  { q with
    heap := []
    index := fun _ => none
    seq := 0
    notifyEnqueue := q.channels
    channels := q.channels + 1
    pending := update q.pending q.channels false }

def raise (p : ℤ) (seq : ℕ) (u : RepoUpdate) : RepoUpdate := { u with priority := p, seq := seq }

def Queue.enqueue (q : Queue) (repo : ConfiguredRepo) (p : ℤ) : Except String (Bool × Queue) :=
  if repo.id = 0 then .error "repo.id is zero"
  else match q.index repo.id with
    | none => .ok (false, (q.heapPush ⟨repo, p, 0, false, 0⟩).notify)
    | some a =>
      if (q.objects a).updating then .ok (false, q)
      else
        let q := q.modify a fun u => { u with repo := repo }
        if p ≤ (q.objects a).priority then .ok (true, q)
        else
          let q := { q.modify a (raise p (nextSeq q.seq)) with seq := nextSeq q.seq }
          .ok (true, (q.heapFix (q.objects a).index).notify)

def Queue.remove (q : Queue) (repo : ConfiguredRepo) (updating : Bool) :
    Except String (Bool × Queue) :=
  if repo.id = 0 then .error "repo.id is zero"
  else match q.index repo.id with
    | none => .ok (false, q)
    | some a =>
      if (q.objects a).updating = updating then .ok (true, q.heapRemove (q.objects a).index)
      else .ok (false, q)

def Queue.acquireNext (q : Queue) : Option ConfiguredRepo × Queue :=
  match q.heap with
  | [] => (none, q)
  | a :: _ =>
    if (q.objects a).updating then (none, q)
    else
      let q := q.modify a fun u => { u with updating := true }
      let q := q.heapFix (q.objects a).index
      (some (q.objects a).repo, q)

abbrev Key := Bool ×ₗ ℤᵒᵈ ×ₗ ℕ

def RepoUpdate.key (u : RepoUpdate) : Key :=
  toLex (u.updating, toLex (OrderDual.toDual u.priority, u.seq))

theorem key_lt_iff (u v : RepoUpdate) : u.key < v.key ↔
    u.updating < v.updating ∨ u.updating = v.updating ∧
      (v.priority < u.priority ∨ u.priority = v.priority ∧ u.seq < v.seq) := by
  rw [RepoUpdate.key, RepoUpdate.key, Prod.Lex.toLex_lt_toLex, Prod.Lex.toLex_lt_toLex]
  simp

theorem less_iff (q : Queue) (i j : ℕ) : q.less i j = true ↔ (q.entry i).key < (q.entry j).key := by
  rw [key_lt_iff, Queue.less]
  by_cases hupd : (q.entry i).updating = (q.entry j).updating
  · by_cases hpr : (q.entry i).priority = (q.entry j).priority
    · simp [hupd, hpr]
    · simp [hupd, hpr]
  cases hi : (q.entry i).updating <;> cases hj : (q.entry j).updating <;>
    simp_all

theorem key_setIndex : (setIndex i u).key = u.key := rfl

theorem setIndex_setIndex (i j : ℤ) (u : RepoUpdate) : setIndex i (setIndex j u) = setIndex i u :=
  rfl

variable {id : ℤ}

theorem key_congr (h : setIndex 0 u = setIndex 0 v) : u.key = v.key := by
  rw [← key_setIndex, h, key_setIndex]

theorem repo_congr (h : setIndex 0 u = setIndex 0 v) : u.repo = v.repo := by
  show (setIndex 0 u).repo = _
  rw [h, setIndex]

theorem getD_set {l : List ℕ} (h : i < l.length) :
    (l.set i a).getD k 0 = if k = i then a else l.getD k 0 := by
  rw [getD_eq_getElem?_getD, getD_eq_getElem?_getD, getElem?_set]
  by_cases hk : i = k
  · subst hk
    rw [if_pos rfl, if_pos h, if_pos rfl, Option.getD_some]
  · rw [if_neg hk, if_neg (Ne.symm hk)]

theorem getD_swap {q : Queue} (hi : i < q.len) (hj : j < q.len) (k : ℕ) :
    (q.swap i j).heap.getD k 0 = exchange (fun m => q.heap.getD m 0) i j k := by
  have hlen : j < (q.heap.set i (q.heap.getD j 0)).length := by
    rw [length_set]
    exact hj
  show ((q.heap.set i (q.heap.getD j 0)).set j (q.heap.getD i 0)).getD k 0 = _
  rw [getD_set hlen, getD_set hi, exchange]
  by_cases hkj : k = j <;> by_cases hki : k = i <;> simp_all

theorem modify_self (q : Queue) (a : ℕ) (f : RepoUpdate → RepoUpdate) :
    (q.modify a f).objects a = f (q.objects a) := update_self _ _ _

theorem modify_of_ne (q : Queue) (h : b ≠ a) (f : RepoUpdate → RepoUpdate) :
    (q.modify a f).objects b = q.objects b := update_of_ne h _ _

theorem stored_modify (q : Queue) (a b : ℕ) (i : ℤ) :
    setIndex 0 ((q.modify a (setIndex i)).objects b) = setIndex 0 (q.objects b) := by
  by_cases hb : b = a
  · rw [hb, modify_self, setIndex_setIndex]
  · rw [modify_of_ne q hb]

theorem stored_swap (q : Queue) (i j a : ℕ) :
    setIndex 0 ((q.swap i j).objects a) = setIndex 0 (q.objects a) := by
  rw [Queue.swap, stored_modify, stored_modify]

theorem key_entry_swap {q : Queue} (hi : i < q.len) (hj : j < q.len) (k : ℕ) :
    ((q.swap i j).entry k).key = exchange (fun m => (q.entry m).key) i j k := by
  rw [Queue.entry, key_congr (stored_swap q i j _), getD_swap hi hj]
  simp only [exchange]
  split
  · rfl
  split
  · rfl
  · rfl

theorem len_swap (q : Queue) (i j : ℕ) : (q.swap i j).len = q.len := by
  show ((q.heap.set i _).set j _).length = q.heap.length
  rw [length_set, length_set]

def keyed : BinaryHeap.Keyed heapInterface Key where
  key q i := (q.entry i).key
  less_iff q i j _ _ := less_iff q i j
  len_swap := len_swap
  key_swap _ _ _ hi hj := funext (key_entry_swap hi hj)

def Positioned (q : Queue) : Prop := ∀ i, i < q.len → (q.entry i).index = i

structure Rearranged (q q' : Queue) : Prop where
  heap : q'.heap.Perm q.heap
  stored : ∀ a, setIndex 0 (q'.objects a) = setIndex 0 (q.objects a)
  others : { q' with heap := q.heap, objects := q.objects } = q
  positioned : q.heap.Nodup → Positioned q → Positioned q'

theorem Rearranged.refl (q : Queue) : Rearranged q q := ⟨.refl _, fun _ => rfl, rfl, fun _ h => h⟩

theorem Rearranged.len (h : Rearranged q q') : q'.len = q.len := h.heap.length_eq

theorem heap_swap_perm {q : Queue} (hi : i < q.len) (hj : j < q.len) :
    (q.swap i j).heap.Perm q.heap := by
  show ((q.heap.set i (q.heap.getD j 0)).set j (q.heap.getD i 0)).Perm q.heap
  rw [getD_eq_getElem _ _ hi, getD_eq_getElem _ _ hj]
  exact set_set_perm hi hj

theorem getD_inj {l : List ℕ} (h : l.Nodup) (hi : i < l.length) (hj : j < l.length)
    (heq : l.getD i 0 = l.getD j 0) : i = j := by
  rw [getD_eq_getElem _ _ hi, getD_eq_getElem _ _ hj] at heq
  exact (Nodup.getElem_inj_iff h).mp heq

theorem positioned_swap {q : Queue} (hi : i < q.len) (hj : j < q.len) (hnd : q.heap.Nodup)
    (h : Positioned q) : Positioned (q.swap i j) := by
  intro k hk
  rw [len_swap] at hk
  have hinj := fun {m} (hm : m < q.len) => getD_inj hnd (i := k) (j := m) hk hm
  rw [Queue.entry, getD_swap hi hj, exchange]
  rw [Queue.swap]
  by_cases hki : k = i
  · subst hki
    rw [if_pos rfl]
    by_cases hsm : q.heap.getD j 0 = q.heap.getD k 0
    · rw [hsm, modify_self]
      have := hinj hj hsm.symm
      rw [setIndex, this]
    · rw [modify_of_ne _ hsm, modify_self, setIndex]
  · rw [if_neg hki]
    by_cases hkj : k = j
    · subst hkj
      rw [if_pos rfl, modify_self, setIndex]
    rw [if_neg hkj, modify_of_ne _ fun he => hki (hinj hi he),
      modify_of_ne _ fun he => hkj (hinj hj he)]
    exact h k hk

theorem Rearranged.swap (h : Rearranged q q') (hi : i < q'.len) (hj : j < q'.len) :
    Rearranged q (q'.swap i j) where
  heap := (heap_swap_perm hi hj).trans h.heap
  stored a := (stored_swap q' i j a).trans (h.stored a)
  others := h.others
  positioned hnd hpos :=
    positioned_swap hi hj (h.heap.nodup_iff.mpr hnd) (h.positioned hnd hpos)

theorem Rearranged.trans (h : Rearranged q q') (h' : Rearranged q' q'') : Rearranged q q'' where
  heap := h'.heap.trans h.heap
  stored a := (h'.stored a).trans (h.stored a)
  others := by
    have hf := h.others
    rw [← h'.others] at hf
    exact hf
  positioned hnd hpos :=
    h'.positioned (h.heap.nodup_iff.mpr hnd) (h.positioned hnd hpos)

theorem rearranged_up (q : Queue) (hj : j < q.len) :
    Rearranged q (BinaryHeap.up heapInterface j q j) := by
  refine BinaryHeap.up_preserves (P := Rearranged q) (n := q.len) ?_ j q j hj (Rearranged.refl q)
  intro s i k hi hk hs
  exact hs.swap (by rwa [hs.len]) (by rwa [hs.len])

theorem rearranged_sift (q : Queue) {n : ℕ} (hi : i < n) (hn : n ≤ q.len) :
    Rearranged q (BinaryHeap.sift heapInterface n q i) ∧
      ∀ k, n ≤ k → (BinaryHeap.sift heapInterface n q i).heap.getD k 0 = q.heap.getD k 0 := by
  refine BinaryHeap.sift_preserves
    (P := fun s => Rearranged q s ∧ ∀ k, n ≤ k → s.heap.getD k 0 = q.heap.getD k 0)
    ?_ q hi ⟨Rearranged.refl q, fun _ _ => rfl⟩
  intro s a b ha hb hs
  obtain ⟨hre, hrs⟩ := hs
  have hlen := hre.len
  have hla : a < s.len := by omega
  have hlb : b < s.len := by omega
  refine ⟨hre.swap hla hlb, fun k hk => ?_⟩
  show (s.swap a b).heap.getD k 0 = _
  rw [getD_swap hla hlb, exchange, if_neg (by omega), if_neg (by omega)]
  exact hrs k hk

structure Coherent (q : Queue) : Prop where
  nodup : q.heap.Nodup
  fresh : ∀ a ∈ q.heap, a < q.allocated
  positioned : Positioned q
  indexed : ∀ id a, q.index id = some a ↔ a ∈ q.heap ∧ (q.objects a).repo.id = id

def Sorted (q : Queue) : Prop := Ordered (keyed.key q) q.len

structure Sound (q : Queue) : Prop extends Coherent q where
  sorted : Sorted q

theorem Sound.with_pending (h : Sound q) (pending : ℕ → Bool) :
    Sound { q with pending := pending } :=
  ⟨⟨h.nodup, h.fresh, h.positioned, h.indexed⟩, h.sorted⟩

def Queue.contents (q : Queue) (id : ℤ) : Option RepoUpdate :=
  (q.index id).map fun a => setIndex 0 (q.objects a)

theorem contents_eq_some (h : Coherent q) :
    q.contents id = some u ↔
      ∃ a ∈ q.heap, (q.objects a).repo.id = id ∧ setIndex 0 (q.objects a) = u := by
  rw [Queue.contents, Option.map_eq_some_iff]
  constructor
  · rintro ⟨a, hindex, hu⟩
    obtain ⟨hmem, hid⟩ := (h.indexed id a).mp hindex
    exact ⟨a, hmem, hid, hu⟩
  · rintro ⟨a, hmem, hid, hu⟩
    exact ⟨a, (h.indexed id a).mpr ⟨hmem, hid⟩, hu⟩

theorem contents_index (h : Coherent q) (hu : q.contents id = some u) :
    ∃ a, q.index id = some a ∧ a ∈ q.heap ∧ setIndex 0 (q.objects a) = u := by
  obtain ⟨a, hmem, hid, hu⟩ := (contents_eq_some h).mp hu
  exact ⟨a, (h.indexed id a).mpr ⟨hmem, hid⟩, hmem, hu⟩

theorem contents_eq_none {q : Queue} : q.contents id = none ↔ q.index id = none := by
  rw [Queue.contents, Option.map_eq_none_iff]

theorem exists_position (h : Coherent q) (ha : a ∈ q.heap) :
    ∃ i, i < q.len ∧ q.heap.getD i 0 = a ∧ (q.objects a).index = i := by
  obtain ⟨i, hi, hget⟩ := getElem_of_mem ha
  have had : q.heap.getD i 0 = a := by rw [getD_eq_getElem _ _ hi, hget]
  refine ⟨i, hi, had, ?_⟩
  rw [← had]
  exact h.positioned i hi

theorem Rearranged.index (h : Rearranged q q') : q'.index = q.index :=
  (congrArg Queue.index h.others :)

theorem Rearranged.coherent (h : Rearranged q q') (hq : Coherent q) : Coherent q' where
  nodup := h.heap.nodup_iff.mpr hq.nodup
  fresh a ha := by
    have hall : q'.allocated = q.allocated := (congrArg Queue.allocated h.others :)
    rw [hall]
    exact hq.fresh a (h.heap.mem_iff.mp ha)
  positioned := h.positioned hq.nodup hq.positioned
  indexed id a := by
    rw [h.index, hq.indexed, h.heap.mem_iff, repo_congr (h.stored a)]

theorem Rearranged.contents (h : Rearranged q q') : q'.contents = q.contents := by
  funext id
  rw [Queue.contents, Queue.contents, h.index]
  simp [h.stored]

def Queue.wires (q : Queue) : ℕ × ℕ × (ℕ → Bool) := (q.notifyEnqueue, q.channels, q.pending)

theorem Rearranged.seq (h : Rearranged q q') : q'.seq = q.seq := (congrArg Queue.seq h.others :)

theorem Rearranged.wires (h : Rearranged q q') : q'.wires = q.wires :=
  (congrArg Queue.wires h.others :)

structure Holds (q : Queue) (contents : ℤ → Option RepoUpdate) (index : ℤ → Option ℕ) (seq : ℕ)
    (wires : ℕ × ℕ × (ℕ → Bool)) : Prop where
  sound : Sound q
  contents : q.contents = contents
  index : q.index = index
  seq : q.seq = seq
  wires : q.wires = wires

theorem holds_rearranged (h : Rearranged q q') (hq : Coherent q) (hsrt : Sorted q') :
    Holds q' q.contents q.index q.seq q.wires :=
  ⟨⟨h.coherent hq, hsrt⟩, h.contents, h.index, h.seq, h.wires⟩

theorem getD_append_length : (l ++ [a]).getD l.length 0 = a := by
  simp

theorem getD_mem {l : List ℕ} (h : k < l.length) : l.getD k 0 ∈ l := by
  rw [getD_eq_getElem _ _ h]
  exact getElem_mem h

section Push

variable (h : Coherent q) (item : RepoUpdate)

theorem len_push : (q.push item).len = q.len + 1 := by
  show (q.heap ++ [_]).length = _
  rw [length_append]
  rfl

include h in
theorem push_objects (ha : a ∈ q.heap) : (q.push item).objects a = q.objects a := by
  have hne : a ≠ q.allocated := Nat.ne_of_lt (h.fresh a ha)
  exact update_of_ne hne _ _

theorem push_objects_new : (q.push item).objects q.allocated =
    { item with index := q.heap.length, seq := nextSeq q.seq } := update_self _ _ _

include h in
theorem push_entry (hk : k < q.len) : (q.push item).entry k = q.entry k := by
  show (q.push item).objects ((q.heap ++ [q.allocated]).getD k 0) = _
  rw [getD_append _ _ _ _ hk, push_objects h item (getD_mem hk), Queue.entry]

theorem push_entry_last : (q.push item).entry q.len =
    { item with index := q.heap.length, seq := nextSeq q.seq } := by
  show (q.push item).objects ((q.heap ++ [q.allocated]).getD q.heap.length 0) = _
  rw [getD_append_length, push_objects_new]

include h in
theorem push_coherent (habs : q.index item.repo.id = none) : Coherent (q.push item) where
  nodup := nodup_append_comm.mp (nodup_cons.mpr ⟨fun hmem => lt_irrefl _ (h.fresh _ hmem), h.nodup⟩)
  fresh := forall_mem_append.mpr ⟨fun a ha => Nat.lt_succ_of_lt (h.fresh a ha),
    forall_mem_singleton.mpr (Nat.lt_succ_self _)⟩
  positioned k hk := by
    rw [len_push] at hk
    by_cases hla : k = q.len
    · rw [hla, push_entry_last]
      rfl
    rw [push_entry h item (by omega)]
    exact h.positioned k (by omega)
  indexed id a := by
    show update q.index item.repo.id (some q.allocated) id = some a ↔
      a ∈ q.heap ++ [q.allocated] ∧ _
    rw [mem_append, mem_singleton]
    have hold : ∀ b ∈ q.heap, (q.objects b).repo.id ≠ item.repo.id := by
      intro b hb heq
      rw [(h.indexed _ b).mpr ⟨hb, heq⟩] at habs
      exact absurd habs (Option.some_ne_none _)
    by_cases hid : id = item.repo.id
    · rw [hid, update_self]
      constructor
      · intro heq
        obtain rfl := Option.some.inj heq
        exact ⟨.inr rfl, by rw [push_objects_new]⟩
      · rintro ⟨hmem | rfl, hrepo⟩
        · rw [push_objects h item hmem] at hrepo
          exact absurd hrepo (hold a hmem)
        · rfl
    · rw [update_of_ne hid, h.indexed]
      constructor
      · rintro ⟨hmem, hrepo⟩
        exact ⟨.inl hmem, by rw [push_objects h item hmem, hrepo]⟩
      · rintro ⟨hmem | rfl, hrepo⟩
        · rw [push_objects h item hmem] at hrepo
          exact ⟨hmem, hrepo⟩
        · rw [push_objects_new] at hrepo
          exact absurd hrepo.symm hid

include h in
theorem contents_push : (q.push item).contents = update q.contents item.repo.id
    (some { item with index := 0, seq := nextSeq q.seq }) := by
  funext id
  show (update q.index item.repo.id (some q.allocated) id).map _ = _
  by_cases hid : id = item.repo.id
  · rw [hid, update_self, update_self, Option.map_some, push_objects_new]
    rfl
  rw [update_of_ne hid, update_of_ne hid, Queue.contents]
  cases hindex : q.index id with
  | none => rfl
  | some a =>
    rw [Option.map_some, Option.map_some, push_objects h item ((h.indexed id a).mp hindex).1]

theorem upOrdered_push (h : Sound q) : UpOrdered (keyed.key (q.push item)) (q.len + 1) q.len := by
  have hkey : ∀ k, k < q.len → keyed.key (q.push item) k = keyed.key q k := by
    intro k hk
    show ((q.push item).entry k).key = (q.entry k).key
    rw [push_entry h.toCoherent item hk]
  constructor
  · intro k hk hn hne
    have hlt := BinaryHeap.parent_lt hk
    rw [hkey _ (by omega), hkey _ (by omega)]
    exact h.sorted k hk (by omega)
  · intro k hk hn hp _
    have hlt := BinaryHeap.parent_lt hk
    omega

theorem heapPush_holds (h : Sound q) (habs : q.index item.repo.id = none) :
    Holds (q.heapPush item) (update q.contents item.repo.id
      (some { item with index := 0, seq := nextSeq q.seq }))
      (update q.index item.repo.id (some q.allocated)) (nextSeq q.seq) q.wires := by
  have hlen : (q.push item).len - 1 = q.len := by
    rw [len_push, Nat.add_sub_cancel]
  have hlt : q.len < (q.push item).len := by
    rw [len_push]
    exact Nat.lt_succ_self _
  have hre := rearranged_up (q.push item) hlt
  have hord := BinaryHeap.up_ordered keyed q.len (q.push item) q.len (le_refl _)
    (Nat.lt_succ_self _) (le_of_eq (len_push item).symm) (upOrdered_push item h)
  have hh := holds_rearranged hre (push_coherent h.toCoherent item habs) (by
    rw [Sorted, hre.len, len_push]
    exact hord)
  rw [contents_push h.toCoherent] at hh
  rw [Queue.heapPush]
  simp only [hlen]
  exact hh

end Push

section Modify

variable {q : Queue} (h : Coherent q) {a : ℕ} (ha : a ∈ q.heap) {f : RepoUpdate → RepoUpdate}
  (hindex : (f (q.objects a)).index = (q.objects a).index)
  (hrepo : (f (q.objects a)).repo.id = (q.objects a).repo.id) (seq : ℕ)

include h hindex hrepo in
theorem modify_coherent : Coherent { q.modify a f with seq := seq } where
  nodup := h.nodup
  fresh := h.fresh
  positioned k hk := by
    show ((q.modify a f).objects (q.heap.getD k 0)).index = k
    have hold := h.positioned k hk
    rw [Queue.entry] at hold
    by_cases hka : q.heap.getD k 0 = a
    · rw [hka] at hold ⊢
      rw [modify_self, hindex, hold]
    · rw [modify_of_ne q hka, hold]
  indexed id b := by
    show q.index id = some b ↔ b ∈ q.heap ∧ ((q.modify a f).objects b).repo.id = id
    rw [h.indexed]
    by_cases hba : b = a
    · rw [hba, modify_self, hrepo]
    · rw [modify_of_ne q hba]

include h ha in
theorem contents_modify : ({ q.modify a f with seq := seq } : Queue).contents =
    update q.contents (q.objects a).repo.id (some (setIndex 0 (f (q.objects a)))) := by
  funext id
  show (q.index id).map (fun b => setIndex 0 ((q.modify a f).objects b)) = _
  by_cases hid : id = (q.objects a).repo.id
  · rw [hid, update_self, (h.indexed _ a).mpr ⟨ha, rfl⟩, Option.map_some, modify_self]
  rw [update_of_ne hid, Queue.contents]
  cases hb : q.index id with
  | none => rfl
  | some b =>
    have hne : b ≠ a := fun he => hid (by rw [← he, ((h.indexed id b).mp hb).2])
    rw [Option.map_some, Option.map_some, modify_of_ne q hne]

theorem around_modify (h : Sound q) {i : ℕ} (hi : i < q.len) (hai : q.heap.getD i 0 = a) :
    Around (keyed.key { q.modify a f with seq := seq }) q.len i := by
  refine (h.sorted.around i).congr fun k hk hne => ?_
  show ((q.modify a f).objects (q.heap.getD k 0)).key = _
  have hka : q.heap.getD k 0 ≠ a := by
    rw [← hai]
    exact fun heq => hne (getD_inj h.nodup hk hi heq)
  rw [modify_of_ne q hka]
  rfl

include ha hindex hrepo in
theorem heapFix_holds (h : Sound q) :
    Holds (({ q.modify a f with seq := seq } : Queue).heapFix ((q.modify a f).objects a).index)
      (update q.contents (q.objects a).repo.id (some (setIndex 0 (f (q.objects a)))))
      q.index seq q.wires := by
  obtain ⟨i, hi, hai, hps⟩ := exists_position h.toCoherent ha
  rw [modify_self, hindex, hps, Queue.heapFix, Int.toNat_natCast]
  have haro := around_modify (f := f) seq h hi hai
  have hord := BinaryHeap.sift_ordered keyed { q.modify a f with seq := seq } hi (le_refl _) haro
  have hre := (rearranged_sift { q.modify a f with seq := seq } hi (le_refl _)).1
  have hh := holds_rearranged hre (modify_coherent h.toCoherent hindex hrepo seq) (by
    rw [Sorted, hre.len]
    exact hord)
  rw [contents_modify h.toCoherent ha] at hh
  exact hh

include ha hindex hrepo in
theorem modify_holds (h : Sound q) (hkey : (f (q.objects a)).key = (q.objects a).key) :
    Holds (q.modify a f)
      (update q.contents (q.objects a).repo.id (some (setIndex 0 (f (q.objects a)))))
      q.index q.seq q.wires := by
  refine ⟨⟨modify_coherent h.toCoherent hindex hrepo q.seq, ?_⟩,
    contents_modify h.toCoherent ha q.seq, rfl, rfl, rfl⟩
  have hsm : keyed.key (q.modify a f) = keyed.key q := by
    funext k
    show ((q.modify a f).objects (q.heap.getD k 0)).key = (q.objects (q.heap.getD k 0)).key
    by_cases hka : q.heap.getD k 0 = a
    · rw [hka, modify_self, hkey]
    · rw [modify_of_ne q hka]
  rw [Sorted, hsm]
  exact h.sorted

end Modify

section Pop

variable (h : Coherent q) (hheap : q.heap = l ++ [a])

include hheap in
theorem pop_eq : q.pop = { q.modify a (setIndex (-1)) with
    heap := l, index := update q.index (q.objects a).repo.id none } := by
  have hla : q.heap.getD (q.heap.length - 1) 0 = a := by
    rw [hheap, length_append, length_singleton, Nat.add_sub_cancel, getD_append_length]
  rw [Queue.pop]
  simp only [hla]
  rw [hheap, dropLast_concat]

include h hheap in
theorem pop_coherent : Coherent q.pop := by
  have hnd := h.nodup
  rw [hheap, nodup_append] at hnd
  obtain ⟨hl, _, hdis⟩ := hnd
  have hne : ∀ b ∈ l, b ≠ a := fun b hb => hdis b hb a (mem_singleton_self a)
  have hmem : ∀ b ∈ l, b ∈ q.heap := fun b hb => by
    rw [hheap]
    exact mem_append_left _ hb
  have ha : a ∈ q.heap := by
    rw [hheap]
    exact mem_append_right _ (mem_singleton_self a)
  rw [pop_eq hheap]
  refine ⟨hl, fun b hb => h.fresh b (hmem b hb), fun k hk => ?_, fun id b => ?_⟩
  · show ((q.modify a (setIndex (-1))).objects (l.getD k 0)).index = k
    rw [modify_of_ne q (hne _ (getD_mem hk))]
    have hold := h.positioned k (by
      rw [Queue.len, hheap, length_append]
      exact Nat.lt_add_right _ hk)
    rwa [Queue.entry, hheap, getD_append _ _ _ _ hk] at hold
  · show update q.index (q.objects a).repo.id none id = some b ↔
      b ∈ l ∧ ((q.modify a (setIndex (-1))).objects b).repo.id = id
    by_cases hid : id = (q.objects a).repo.id
    · rw [hid, update_self]
      refine ⟨fun hno => absurd hno.symm (Option.some_ne_none b), fun ⟨hb, hrepo⟩ => ?_⟩
      rw [modify_of_ne q (hne b hb)] at hrepo
      have hsm := (h.indexed _ b).mpr ⟨hmem b hb, hrepo⟩
      rw [(h.indexed _ a).mpr ⟨ha, rfl⟩] at hsm
      exact absurd (Option.some.inj hsm).symm (hne b hb)
    rw [update_of_ne hid, h.indexed]
    constructor
    · rintro ⟨hb, hrepo⟩
      rw [hheap, mem_append, mem_singleton] at hb
      rcases hb with hb | rfl
      · exact ⟨hb, by rw [modify_of_ne q (hne b hb), hrepo]⟩
      · exact absurd hrepo.symm hid
    · rintro ⟨hb, hrepo⟩
      rw [modify_of_ne q (hne b hb)] at hrepo
      exact ⟨hmem b hb, hrepo⟩

include hheap in
theorem contents_pop : q.pop.contents = update q.contents (q.objects a).repo.id none := by
  funext id
  rw [pop_eq hheap]
  show (update q.index (q.objects a).repo.id none id).map
    (fun b => setIndex 0 ((q.modify a (setIndex (-1))).objects b)) = _
  by_cases hid : id = (q.objects a).repo.id
  · rw [hid, update_self, update_self, Option.map_none]
  rw [update_of_ne hid, update_of_ne hid, Queue.contents]
  simp only [stored_modify]

include h hheap in
theorem pop_holds (hord : Ordered (keyed.key q) l.length) :
    Holds q.pop (update q.contents (q.objects a).repo.id none)
      (update q.index (q.objects a).repo.id none) q.seq q.wires := by
  have hlen : q.pop.len = l.length := by rw [pop_eq hheap, Queue.len]
  have hkey : ∀ k, k < l.length → keyed.key q.pop k = keyed.key q k := by
    intro k hk
    rw [pop_eq hheap]
    show ((q.modify a (setIndex (-1))).objects (l.getD k 0)).key = (q.objects (q.heap.getD k 0)).key
    rw [key_congr (stored_modify q a _ _), hheap, getD_append _ _ _ _ hk]
  refine ⟨⟨pop_coherent h hheap, fun k hk hn => ?_⟩, contents_pop hheap, ?_, ?_, ?_⟩
  · have hlt := BinaryHeap.parent_lt hk
    rw [hlen] at hn
    rw [hkey _ (by omega), hkey _ hn]
    exact hord k hk hn
  · rw [pop_eq hheap]
  · rw [pop_eq hheap, Queue.modify]
  · rw [pop_eq hheap]
    rfl

end Pop

theorem eq_append_getD (h : l.length = n + 1) : l = l.take n ++ [l.getD n 0] := by
  have hn : n < l.length := by omega
  rw [getD_eq_getElem _ _ hn, take_append_getElem hn, ← h, take_length]

theorem heapRemove_holds {q : Queue} (h : Sound q) (ha : a ∈ q.heap) :
    Holds (q.heapRemove (q.objects a).index) (update q.contents (q.objects a).repo.id none)
      (update q.index (q.objects a).repo.id none) q.seq q.wires := by
  obtain ⟨i, hi, hai, hps⟩ := exists_position h.toCoherent ha
  obtain ⟨n, hn⟩ : ∃ n, q.len = n + 1 := ⟨q.len - 1, by omega⟩
  have hord : Ordered (keyed.key q) n := fun k hk hkn => h.sorted k hk (by omega)
  rw [Queue.heapRemove, hps, Int.toNat_natCast, hn, Nat.add_sub_cancel]
  by_cases hla : n = i
  · rw [if_neg (not_not.mpr hla)]
    have hheap := eq_append_getD hn
    rw [hla, hai] at hheap
    refine pop_holds h.toCoherent hheap fun k hk hkn => hord k hk ?_
    rw [length_take] at hkn
    omega
  -- The entry goes to the last position, where the sift of the others does not reach it.
  rw [if_pos hla]
  have hswa := (Rearranged.refl q).swap hi (show n < q.len by omega)
  have haro : Around (keyed.key (q.swap i n)) n i := by
    refine (hord.around i).congr fun k hk hne => ?_
    show ((q.swap i n).entry k).key = (q.entry k).key
    rw [key_entry_swap hi (by omega), exchange, if_neg hne, if_neg (by omega)]
  have hin : i < n := by omega
  have hlen := hswa.len
  have hsrt := BinaryHeap.sift_ordered keyed (q.swap i n) hin (by
    show n ≤ (q.swap i n).len
    omega) haro
  obtain ⟨hsif, hrs⟩ := rearranged_sift (q.swap i n) hin (by omega)
  have hre := hswa.trans hsif
  have hend := hrs n (le_refl n)
  rw [getD_swap hi (by omega), exchange, if_neg hla, if_pos rfl, hai] at hend
  have hheap := eq_append_getD (hre.len.trans hn)
  rw [hend] at hheap
  have hpop := pop_holds (hre.coherent h.toCoherent) hheap fun k hk hkn => hsrt k hk (by
    rw [length_take] at hkn
    omega)
  rw [repo_congr (hre.stored a), hre.contents, hre.index, hre.seq, hre.wires] at hpop
  exact hpop

end UpdateQueue
