import Sourcegraph.GoStrings

/-! # Paging through a connection

A page is fetched with one row more than requested, which tells whether there is another one.
Backward pages are fetched in the opposite order and reversed. -/
namespace ConnectionPaging

open GoStrings List

inductive OrderByNulls where
  | first
  | last
  deriving DecidableEq

structure OrderByOption where
  field : String
  nulls : Option OrderByNulls := none
  deriving DecidableEq

structure PaginationArgs (V : Type) where
  first : Option ℤ := none
  last : Option ℤ := none
  after : Option V := none
  before : Option V := none
  orderBy : List OrderByOption
  ascending : Bool

/-- A comparison of the order-by columns with the values of a cursor. -/
structure Condition (V : Type) where
  columns : List String
  greater : Bool
  values : V

structure OrderTerm where
  option : OrderByOption
  ascending : Bool

structure QueryArgs (V : Type) where
  conditions : List (Condition V)
  order : List OrderTerm
  limit : Option ℤ

def PaginationArgs.sql {V : Type} (p : PaginationArgs V) : QueryArgs V :=
  let orderBy := if p.orderBy.length < 1 then [{ field := "id" }] else p.orderBy
  let columns := orderBy.map OrderByOption.field
  let conditions := (p.after.map fun after => ⟨columns, p.ascending, after⟩).toList ++
    (p.before.map fun before => ⟨columns, !p.ascending, before⟩).toList
  match p.first, p.last with
  | some first, _ => ⟨conditions, orderBy.map fun o => ⟨o, p.ascending⟩, some first⟩
  | none, some last => ⟨conditions, orderBy.map fun o => ⟨o, !p.ascending⟩, some last⟩
  | none, none => ⟨conditions, orderBy.map fun o => ⟨o, p.ascending⟩, none⟩

structure ConnectionResolverArgs (C : Type) where
  first : Option Int32 := none
  last : Option Int32 := none
  after : Option C := none
  before : Option C := none

structure ConnectionResolverOptions where
  maxPageSize : Option ℤ := none
  reverse : Option Bool := none
  orderBy : List OrderByOption := [{ field := "id" }]
  ascending : Bool := false
  allowNoLimit : Bool := false

/-- A store of nodes with cursors that stand for values of the order-by columns. -/
structure ConnectionResolverStore (N C V : Type) where
  computeNodes : PaginationArgs V → Except String (List N)
  marshalCursor : N → List OrderByOption → Except String C
  unmarshalCursor : C → List OrderByOption → Except String V

def defaultMaxPageSize : ℤ := 100

def ConnectionResolverOptions.maxPageSizeOrDefault (o : ConnectionResolverOptions) : ℤ :=
  o.maxPageSize.getD defaultMaxPageSize

def ConnectionResolverOptions.applyMaxPageSize (o : ConnectionResolverOptions) :
    Option Int32 → ℤ
  | none => o.maxPageSizeOrDefault
  | some limit => if limit.toInt < o.maxPageSizeOrDefault then limit.toInt else o.maxPageSizeOrDefault

section Resolver

variable {N C V : Type} (store : ConnectionResolverStore N C V)
  (options : ConnectionResolverOptions) (args : ConnectionResolverArgs C)

def pageSize : ℤ :=
  options.applyMaxPageSize (if args.first.isSome then args.first else args.last)

def unmarshal (cursor : Option C) : Except String (Option V) :=
  match cursor with
  | none => .ok none
  | some c => (store.unmarshalCursor c options.orderBy).map some

def paginationArgs : Except String (PaginationArgs V) := do
  let limit := pageSize options args + 1
  if args.first.isNone && args.last.isNone && !options.allowNoLimit then
    .error "you must provide a `first` or `last` value to properly paginate"
  else
    let after ← unmarshal store options args.after
    let before ← unmarshal store options args.before
    .ok ⟨if args.first.isSome then some limit else none,
      if args.first.isNone && args.last.isSome then some limit else none,
      after, before, options.orderBy, options.ascending⟩

def fetch : List N × Option String :=
  match paginationArgs store options args >>= store.computeNodes with
  | .error e => ([], some e)
  | .ok nodes =>
    (if options.reverse ≠ some false && args.last.isSome then nodes.reverse else nodes, none)

/-- The extra node is removed. An empty slice cannot be cut. -/
def nodes : Except Fault (List N × Option String) :=
  let (fetched, err) := fetch store options args
  if (fetched.length : ℤ) > pageSize options args then
    match fetched with
    | [] => .error (.panic "slice bounds out of range")
    | first :: rest =>
      if args.last.isSome then .ok (rest, err) else .ok ((first :: rest).dropLast, err)
  else .ok (fetched, err)

structure ConnectionPageInfo (N : Type) where
  pageSize : ℤ
  fetchedNodesCount : ℤ
  nodes : List N

def pageInfo : Except Fault (ConnectionPageInfo N) :=
  match nodes store options args with
  | .error e => .error e
  | .ok (_, some e) => .error (.error e)
  | .ok (nodes, none) =>
    .ok ⟨pageSize options args, (fetch store options args).1.length, nodes⟩

def hasNextPage (p : ConnectionPageInfo N) : Bool :=
  if args.first.isSome then p.fetchedNodesCount > p.pageSize
  else if p.fetchedNodesCount = 0 then false
  else args.before.isSome

def hasPreviousPage (p : ConnectionPageInfo N) : Bool :=
  if args.last.isSome then p.fetchedNodesCount > p.pageSize
  else if p.fetchedNodesCount = 0 then false
  else args.after.isSome

def endCursor (p : ConnectionPageInfo N) : Except String (Option C) :=
  match p.nodes.getLast? with
  | none => .ok none
  | some node => (store.marshalCursor node options.orderBy).map some

def startCursor (p : ConnectionPageInfo N) : Except String (Option C) :=
  match p.nodes.head? with
  | none => .ok none
  | some node => (store.marshalCursor node options.orderBy).map some

/-- The pages from a cursor on, following the end cursors while there is a next page. -/
def followNext (n : Int32) : ℕ → Option C → Option (List (List N))
  | 0, _ => none
  | fuel + 1, cursor =>
    let args : ConnectionResolverArgs C := { first := some n, after := cursor }
    match pageInfo store options args with
    | .error _ => none
    | .ok info =>
      if hasNextPage args info then
        match endCursor store options info with
        | .error _ => none
        | .ok next => (followNext n fuel next).map (info.nodes :: ·)
      else some [info.nodes]

/-- The pages before a cursor, following the start cursors while there is a previous page. -/
def followPrevious (n : Int32) : ℕ → Option C → Option (List (List N))
  | 0, _ => none
  | fuel + 1, cursor =>
    let args : ConnectionResolverArgs C := { last := some n, before := cursor }
    match pageInfo store options args with
    | .error _ => none
    | .ok info =>
      if hasPreviousPage args info then
        match startCursor store options info with
        | .error _ => none
        | .ok previous => (followPrevious n fuel previous).map (info.nodes :: ·)
      else some [info.nodes]

end Resolver

/-- A table without equal values in the order-by columns, listed by increasing values. -/
structure Table (N V : Type) [LinearOrder V] where
  rows : List N
  key : N → V
  sorted : rows.Pairwise fun a b => key a < key b

section Tables

variable {N C V : Type} [LinearOrder V]

def Condition.holds (c : Condition V) (v : V) : Bool :=
  if c.greater then c.values < v else v < c.values

/-- The rows that a query selects. A limit that is not positive selects none. -/
def Table.select (t : Table N V) (q : QueryArgs V) : List N :=
  let matching := t.rows.filter fun n => q.conditions.all fun c => c.holds (t.key n)
  let ordered := if q.order.all OrderTerm.ascending then matching else matching.reverse
  match q.limit with
  | none => ordered
  | some limit => ordered.take limit.toNat

def Table.listed (t : Table N V) (ascending : Bool) : List N :=
  if ascending then t.rows else t.rows.reverse

/-- A store that applies the queries to a table, with cursors for its rows. -/
structure Serves (store : ConnectionResolverStore N C V) (t : Table N V) : Prop where
  compute : ∀ p, store.computeNodes p = .ok (t.select p.sql)
  cursor : ∀ n ∈ t.rows, ∀ orderBy, ∃ c,
    store.marshalCursor n orderBy = .ok c ∧ store.unmarshalCursor c orderBy = .ok (t.key n)

def follows (ascending : Bool) (v w : V) : Bool := if ascending then v < w else w < v

variable (t : Table N V)

theorem listed_sorted (asc : Bool) :
    (t.listed asc).Pairwise fun a b => follows asc (t.key a) (t.key b) = true := by
  cases asc with
  | true => exact t.sorted.imp fun h => decide_eq_true h
  | false =>
    rw [Table.listed, if_neg Bool.false_ne_true, pairwise_reverse]
    exact t.sorted.imp fun h => decide_eq_true h

theorem mem_listed : n ∈ t.listed asc ↔ n ∈ t.rows := by
  cases asc with
  | true => exact Iff.rfl
  | false => exact mem_reverse

theorem length_listed : (t.listed asc).length = t.rows.length := by
  cases asc with
  | true => rfl
  | false => exact length_reverse

theorem conditions_hold (p : PaginationArgs V) (v : V) :
    (p.sql.conditions.all fun c => c.holds v) =
      (p.after.all (fun post => follows p.ascending post v) &&
        p.before.all fun pre => follows p.ascending v pre) := by
  obtain ⟨first, last, post, pre, orderBy, asc⟩ := p
  cases first <;> cases last <;> cases post <;> cases pre <;> cases asc <;>
    simp [PaginationArgs.sql, Condition.holds, follows]

theorem order_ascending (ord : List OrderByOption) (asc : Bool) :
    ((if ord.length < 1 then [{ field := "id" }] else ord).map fun o =>
      (⟨o, asc⟩ : OrderTerm)).all OrderTerm.ascending = asc := by
  have hne : (if ord.length < 1 then [{ field := "id" }] else ord) ≠ [] := by
    split
    · exact cons_ne_nil _ _
    rename_i hlen
    rintro rfl
    exact hlen (by simp)
  obtain ⟨first, rest, heq⟩ := exists_cons_of_ne_nil hne
  rw [heq]
  cases asc <;> simp

def Table.between (ascending : Bool) (after before : Option V) : List N :=
  (t.listed ascending).filter fun n =>
    after.all (fun v => follows ascending v (t.key n)) &&
      before.all fun v => follows ascending (t.key n) v

theorem matching_eq (p : PaginationArgs V) :
    (if p.ascending then t.rows.filter fun n => p.sql.conditions.all fun c => c.holds (t.key n)
      else (t.rows.filter fun n => p.sql.conditions.all fun c => c.holds (t.key n)).reverse) =
      t.between p.ascending p.after p.before := by
  simp only [conditions_hold]
  cases p.ascending with
  | true => rfl
  | false => exact filter_reverse.symm

variable {p : PaginationArgs V}

theorem select_first (h : p.first = some limit) :
    t.select p.sql = (t.between p.ascending p.after p.before).take limit.toNat := by
  have hlim : p.sql.limit = some limit := by rw [PaginationArgs.sql, h]
  have hord : p.sql.order.all OrderTerm.ascending = p.ascending := by
    rw [← order_ascending p.orderBy p.ascending, PaginationArgs.sql, h]
  rw [Table.select, hlim, hord, ← matching_eq]

theorem select_last (hf : p.first = none) (h : p.last = some limit) :
    t.select p.sql = (t.between p.ascending p.after p.before).reverse.take limit.toNat := by
  have hlim : p.sql.limit = some limit := by rw [PaginationArgs.sql, hf, h]
  have hord : p.sql.order.all OrderTerm.ascending = !p.ascending := by
    rw [← order_ascending p.orderBy (!p.ascending), PaginationArgs.sql, hf, h]
  rw [Table.select, hlim, hord, ← matching_eq]
  cases p.ascending <;> simp

theorem select_all (hf : p.first = none) (h : p.last = none) :
    t.select p.sql = t.between p.ascending p.after p.before := by
  have hlim : p.sql.limit = none := by rw [PaginationArgs.sql, hf, h]
  have hord : p.sql.order.all OrderTerm.ascending = p.ascending := by
    rw [← order_ascending p.orderBy p.ascending, PaginationArgs.sql, hf, h]
  rw [Table.select, hlim, hord, ← matching_eq]

theorem follows_asymm {v : V} (h : follows asc v w = true) : follows asc w v = false := by
  cases asc
  all_goals
    simp only [follows, Bool.false_eq_true, if_false, if_true, decide_eq_true_eq,
      decide_eq_false_iff_not, not_lt] at h ⊢
    exact le_of_lt h

theorem follows_irrefl (asc : Bool) (v : V) : follows asc v v = false := by
  cases asc <;> simp [follows]

section Between

variable {t}

theorem between_after (h : t.listed asc = earlier ++ n :: later) :
    t.between asc (some (t.key n)) none = later := by
  have hsrt := listed_sorted t asc
  rw [h] at hsrt
  obtain ⟨-, hrt, hcro⟩ := pairwise_append.mp hsrt
  have hear : ∀ m ∈ earlier, follows asc (t.key n) (t.key m) = false :=
    fun m hm => follows_asymm (hcro m hm n mem_cons_self)
  simp only [Table.between, h, Option.all_some, Option.all_none, Bool.and_true, filter_append,
    filter_cons, follows_irrefl, Bool.false_eq_true, if_false]
  rw [filter_eq_nil_iff.mpr (by simpa using hear), nil_append,
    filter_eq_self.mpr (pairwise_cons.mp hrt).1]

theorem listed_flip : t.listed (!asc) = (t.listed asc).reverse := by
  cases asc <;> simp [Table.listed]

theorem between_flip : t.between (!asc) v none = (t.between asc none v).reverse := by
  rw [Table.between, Table.between, listed_flip]
  cases asc <;> cases v <;> simp [follows]

theorem between_none : t.between asc none none = t.listed asc := by
  rw [Table.between, filter_eq_self]
  exact fun _ _ => rfl

end Between

end Tables

section Pages

variable {N C V : Type} [LinearOrder V] {options : ConnectionResolverOptions} {t : Table N V}
  {earlier later : List N} {cursor : Option C}

/-- The cursor of the last row that has been visited. -/
def Behind (store : ConnectionResolverStore N C V) (options : ConnectionResolverOptions)
    (t : Table N V) (earlier : List N) (cursor : Option C) : Prop :=
  (earlier = [] ∧ cursor = none) ∨ ∃ before n c, earlier = before ++ [n] ∧ cursor = some c ∧
    store.unmarshalCursor c options.orderBy = .ok (t.key n)

theorem fetch_eq (h : Serves store t) (har : paginationArgs store options args = .ok p)
    : fetch store options args =
      (if options.reverse ≠ some false && args.last.isSome then (t.select p.sql).reverse
        else t.select p.sql, none) := by
  have hrun : paginationArgs store options args >>= store.computeNodes = .ok (t.select p.sql) := by
    rw [har]
    exact h.compute p
  rw [fetch, hrun]

theorem fetch_first (h : Serves store t) (hlst : t.listed options.ascending = earlier ++ later)
    (hcur : Behind store options t earlier cursor) (n : Int32) :
    fetch store options { first := some n, after := cursor } =
      (later.take (options.applyMaxPageSize (some n) + 1).toNat, none) := by
  have har : ∃ after, paginationArgs store options { first := some n, after := cursor } =
      .ok ⟨some (options.applyMaxPageSize (some n) + 1), none, after, none, options.orderBy,
        options.ascending⟩ ∧ t.between options.ascending after none = later := by
    rcases hcur with ⟨rfl, rfl⟩ | ⟨pre, row, c, rfl, rfl, hc⟩
    · exact ⟨none, rfl, by rw [between_none, hlst, nil_append]⟩
    refine ⟨some (t.key row), ?_, ?_⟩
    · simp only [paginationArgs, unmarshal, hc]
      rfl
    · rw [append_assoc] at hlst
      exact between_after hlst
  obtain ⟨after, har, hbet⟩ := har
  rw [fetch_eq h har]
  simp only [Option.isSome_none, Bool.and_false, Bool.false_eq_true, if_false]
  rw [select_first t rfl, hbet]

/-- The last rows before a cursor are the first ones after it in the opposite order. -/
def flipped (options : ConnectionResolverOptions) : ConnectionResolverOptions :=
  { options with ascending := !options.ascending }

theorem fetch_flip (h : Serves store t) (hrev : options.reverse ≠ some false) :
    fetch store options { last := some n, before := cursor } =
      ((fetch store (flipped options) { first := some n, after := cursor }).1.reverse,
        (fetch store (flipped options) { first := some n, after := cursor }).2) := by
  have hla : paginationArgs store options { last := some n, before := cursor } =
      (unmarshal store options cursor).map fun v => ⟨none,
        some (options.applyMaxPageSize (some n) + 1), none, v, options.orderBy,
          options.ascending⟩ := rfl
  have hf : paginationArgs store (flipped options) { first := some n, after := cursor } =
      (unmarshal store options cursor).map fun v => ⟨some (options.applyMaxPageSize (some n) + 1),
        none, v, none, options.orderBy, !options.ascending⟩ := rfl
  cases hcur : unmarshal store options cursor with
  | error e =>
    rw [hcur] at hla hf
    rw [fetch, fetch, hla, hf]
    rfl
  | ok v =>
    rw [hcur] at hla hf
    rw [fetch_eq h hla, fetch_eq h hf, select_last t rfl rfl, select_first t rfl, between_flip]
    simp [hrev]

variable {k : ℕ}

theorem dropLast_take_succ (h : k < later.length) :
    (later.take (k + 1)).dropLast = later.take k := by
  rw [dropLast_eq_take, length_take, take_take]
  congr 1
  omega

omit [LinearOrder V] in
theorem nodes_eq (hfet : fetch store options args = (ft, none)) (hsz : pageSize options args = k) :
    nodes store options args = .ok (if k < ft.length then
      if args.last.isSome then ft.tail else ft.dropLast else ft, none) := by
  rw [nodes, hfet, hsz]
  simp only
  by_cases hmo : k < ft.length
  · rw [if_pos (by omega), if_pos hmo]
    cases ft with
    | nil => cases hmo
    | cons first rest =>
      simp only [tail_cons]
      split <;> rfl
  · rw [if_neg (by omega), if_neg hmo]

theorem page_first (h : Serves store t) (hlst : t.listed options.ascending = earlier ++ later)
    (hcur : Behind store options t earlier cursor) (hk : options.applyMaxPageSize (some n) = k) :
    pageInfo store options { first := some n, after := cursor } =
      .ok ⟨k, (later.take (k + 1)).length, later.take k⟩ := by
  have hfet := fetch_first h hlst hcur n
  have hlim : (options.applyMaxPageSize (some n) + 1).toNat = k + 1 := by omega
  rw [hlim] at hfet
  have hsz : pageSize options ({ first := some n, after := cursor } :
      ConnectionResolverArgs C) = k := hk
  have hns : nodes store options { first := some n, after := cursor } =
      .ok (later.take k, none) := by
    rw [nodes_eq hfet hsz, length_take]
    by_cases hmo : k < later.length
    · rw [if_pos (by omega), dropLast_take_succ hmo]
      rfl
    · rw [if_neg (by omega), take_of_length_le (by omega), take_of_length_le (by omega)]
  rw [pageInfo, hns, hfet]
  simp [hsz]

theorem pageInfo_flip (h : Serves store t) (hrev : options.reverse ≠ some false)
    : pageInfo store options { last := some n, before := cursor } =
      (pageInfo store (flipped options) { first := some n, after := cursor }).map
        fun info => { info with nodes := info.nodes.reverse } := by
  rw [pageInfo, pageInfo, nodes, nodes, fetch_flip h hrev]
  have hsz : pageSize options ({ last := some n, before := cursor } : ConnectionResolverArgs C) =
    pageSize (flipped options) { first := some n, after := cursor } := rfl
  generalize fetch store (flipped options) { first := some n, after := cursor } = res
  obtain ⟨ft, err⟩ := res
  simp only [length_reverse, hsz]
  by_cases hmo : (ft.length : ℤ) >
      pageSize (flipped options) { first := some n, after := cursor }
  · rw [if_pos hmo, if_pos hmo]
    rcases eq_nil_or_concat ft with rfl | ⟨init, row, rfl⟩
    · rfl
    · cases init <;> cases err <;> simp [Except.map, dropLast_cons_of_ne_nil]
  rw [if_neg hmo, if_neg hmo]
  cases err <;> rfl

theorem followNext_visits (h : Serves store t) (hk : options.applyMaxPageSize (some n) = k)
    (hpos : 1 ≤ k) (hfu : later.length < fuel)
    (hlst : t.listed options.ascending = earlier ++ later)
    (hcur : Behind store options t earlier cursor) :
    ∃ pag, followNext store options n fuel cursor = some pag ∧ pag.flatten = later := by
  induction fuel generalizing earlier later cursor with
  | zero => omega
  | succ fuel ih =>
    have hpa := page_first h hlst hcur hk
    rw [followNext]
    simp only [hpa, hasNextPage, Option.isSome_some, if_true]
    by_cases hmo : k < later.length
    · rw [if_pos (decide_eq_true (by rw [length_take]; omega))]
      have hne : later.take k ≠ [] := ne_nil_of_length_pos (by rw [length_take]; omega)
      obtain ⟨pre, row, hspl⟩ := (eq_nil_or_concat (later.take k)).resolve_left hne
      rw [concat_eq_append] at hspl
      have hrow : row ∈ later.take k := by
        rw [hspl]
        simp
      have hlat : row ∈ t.listed options.ascending := by
        rw [hlst]
        exact mem_append_right _ (mem_of_mem_take hrow)
      obtain ⟨c, hmar, hunm⟩ := h.cursor row ((mem_listed t).mp hlat) options.orderBy
      have hend : endCursor store options
          (⟨k, (later.take (k + 1)).length, later.take k⟩ : ConnectionPageInfo N) =
          .ok (some c) := by
        rw [endCursor, hspl, getLast?_append_cons, getLast?_singleton]
        simp only [hmar]
        rfl
      rw [hend]
      have hnx : Behind store options t (earlier ++ later.take k) (some c) :=
        .inr ⟨earlier ++ pre, row, c, by rw [hspl, append_assoc], rfl, hunm⟩
      obtain ⟨pag, hpag, hfla⟩ := @ih (earlier ++ later.take k) (later.drop k) (some c)
        (by rw [length_drop]; omega) (by rw [hlst, append_assoc, take_append_drop]) hnx
      refine ⟨later.take k :: pag, ?_, ?_⟩
      · simp only [hpag]
        rfl
      · rw [flatten_cons, hfla, take_append_drop]
    · rw [if_neg (by rw [decide_eq_true_eq, length_take]; omega), take_of_length_le (by omega)]
      exact ⟨[later], rfl, by simp⟩

theorem followPrevious_flip (h : Serves store t) (hrev : options.reverse ≠ some false)
    (fuel : ℕ) : followPrevious store options n fuel cursor =
      (followNext store (flipped options) n fuel cursor).map (map reverse) := by
  induction fuel generalizing cursor with
  | zero => rfl
  | succ fuel ih =>
    rw [followPrevious, followNext]
    simp only [pageInfo_flip h hrev]
    cases pageInfo store (flipped options) { first := some n, after := cursor } with
    | error e => rfl
    | ok info =>
      have hcur : startCursor store options { info with nodes := info.nodes.reverse } =
          endCursor store (flipped options) info := by
        rw [startCursor, head?_reverse]
        rfl
      simp only [Except.map, hcur, hasPreviousPage, hasNextPage, Option.isSome_some, if_true]
      split
      · cases endCursor store (flipped options) info with
        | error e => rfl
        | ok next =>
          simp only [ih]
          cases followNext store (flipped options) n fuel next <;> rfl
      · rfl

end Pages

section Limits

variable {N C V : Type} [LinearOrder V] {store : ConnectionResolverStore N C V}

/-- Without a limit the rows are still cut if there are more than the maximum page size. -/
theorem nodes_without_limit (h : Serves store t) (hall : options.allowNoLimit = true) :
    nodes store options {} = .ok (t.listed options.ascending, none) ↔
      (t.rows.length : ℤ) ≤ options.maxPageSizeOrDefault := by
  have hfet : fetch store options {} = (t.listed options.ascending, none) := by
    have har : paginationArgs store options ({} : ConnectionResolverArgs C) =
        .ok ⟨none, none, none, none, options.orderBy, options.ascending⟩ := by
      simp only [paginationArgs, hall]
      rfl
    rw [fetch_eq h har]
    simp only [Option.isSome_none, Bool.and_false, Bool.false_eq_true, if_false]
    rw [select_all t rfl rfl, between_none]
  have hsz : pageSize options ({} : ConnectionResolverArgs C) = options.maxPageSizeOrDefault := rfl
  rw [nodes, hfet]
  simp only [length_listed]
  by_cases hle : (t.rows.length : ℤ) ≤ options.maxPageSizeOrDefault
  · rw [if_neg (by omega)]
    exact iff_of_true rfl hle
  rw [if_pos (by omega)]
  refine iff_of_false (fun heq => ?_) hle
  cases hro : t.listed options.ascending with
  | nil =>
    rw [hro] at heq
    cases heq
  | cons first rest =>
    rw [hro] at heq
    simp only [Option.isSome_none, Bool.false_eq_true, if_false, Except.ok.injEq,
      Prod.mk.injEq, and_true] at heq
    have := congrArg length heq
    rw [length_dropLast, length_cons] at this
    omega

/-- A page size below zero makes the resolver cut an empty slice. -/
theorem nodes_panic_iff (h : Serves store t)
    (har : args.first.isSome = true ∨ args.last.isSome = true) :
    (∃ flt, nodes store options args = .error flt) ↔ pageSize options args < 0 := by
  have hemp : pageSize options args < 0 → (fetch store options args).1 = [] := by
    intro hneg
    rw [fetch]
    cases hrun : paginationArgs store options args >>= store.computeNodes with
    | error e => rfl
    | ok rows =>
      obtain ⟨p, hp, hcom⟩ := bind_eq_ok hrun
      have hlim : (p.first = some (pageSize options args + 1)) ∨
          (p.first = none ∧ p.last = some (pageSize options args + 1)) := by
        rw [paginationArgs] at hp
        simp only [bind, Except.bind] at hp
        split at hp
        · cases hp
        split at hp
        · cases hp
        split at hp
        · cases hp
        rw [← Except.ok.inj hp]
        cases hf : args.first with
        | some _ => exact .inl rfl
        | none =>
          rw [hf] at har
          simp only [Option.isSome_none, Bool.false_eq_true, false_or] at har
          simp [har]
      have hz : (pageSize options args + 1).toNat = 0 := by omega
      have hro : rows = [] := by
        rw [h.compute] at hcom
        rw [← Except.ok.inj hcom]
        rcases hlim with hf | ⟨hf, hla⟩
        · rw [select_first t hf, hz, take_zero]
        · rw [select_last t hf hla, hz, take_zero]
      simp [hro]
  rw [nodes]
  constructor
  · rintro ⟨flt, hfau⟩
    simp only at hfau
    split at hfau
    · rename_i hmo
      split at hfau
      · rename_i hnil
        rw [hnil, length_nil] at hmo
        omega
      · split at hfau <;> cases hfau
    · cases hfau
  · intro hneg
    refine ⟨.panic "slice bounds out of range", ?_⟩
    simp only [hemp hneg, length_nil]
    rw [if_pos (by omega)]

end Limits

/-- Following the cursors visits every row once, in order. Without a limit all rows are returned if
they are no more than the maximum page size, and a page size below zero always panics. -/
theorem connection_enumerated {N C V : Type} [LinearOrder V]
    (store : ConnectionResolverStore N C V) (t : Table N V) (options : ConnectionResolverOptions)
    (h : Serves store t) :
    (∀ n : Int32, 1 ≤ options.applyMaxPageSize (some n) → ∀ fuel, t.rows.length < fuel →
      (∃ pages, followNext store options n fuel none = some pages ∧
        pages.flatten = t.listed options.ascending) ∧
      (options.reverse ≠ some false →
        ∃ pages, followPrevious store options n fuel none = some pages ∧
          pages.reverse.flatten = t.listed options.ascending)) ∧
    (options.allowNoLimit = true →
      (nodes store options {} = .ok (t.listed options.ascending, none) ↔
        (t.rows.length : ℤ) ≤ options.maxPageSizeOrDefault)) ∧
    ∀ args : ConnectionResolverArgs C, args.first.isSome = true ∨ args.last.isSome = true →
      ((∃ fault, nodes store options args = .error fault) ↔ pageSize options args < 0) := by
  refine ⟨?_, nodes_without_limit h, fun args har => nodes_panic_iff h har⟩
  intro n hn fuel hfu
  obtain ⟨k, hk⟩ := Int.eq_ofNat_of_zero_le (show 0 ≤ options.applyMaxPageSize (some n) by omega)
  refine ⟨?_, fun hrev => ?_⟩
  · exact followNext_visits h hk (by omega) (by rwa [length_listed]) (nil_append _).symm
      (.inl ⟨rfl, rfl⟩)
  · have hfli : (flipped options).applyMaxPageSize (some n) = k := hk
    obtain ⟨pages, hpag, hfla⟩ := followNext_visits h hfli (by omega)
      (by rwa [length_listed]) (nil_append _).symm (.inl ⟨rfl, rfl⟩)
    refine ⟨pages.map reverse, ?_, ?_⟩
    · rw [followPrevious_flip h hrev, hpag]
      rfl
    · rw [← reverse_flatten, hfla, flipped, listed_flip, reverse_reverse]

def tableStore {N V : Type} [LinearOrder V] (t : Table N V) : ConnectionResolverStore N V V where
  computeNodes p := .ok (t.select p.sql)
  marshalCursor n _ := .ok (t.key n)
  unmarshalCursor c _ := .ok c

theorem tableStore_serves [LinearOrder V] (t : Table N V) : Serves (tableStore t) t :=
  ⟨fun _ => rfl, fun n _ _ => ⟨t.key n, rfl, rfl⟩⟩

def threeRows : Table ℕ ℕ := ⟨[1, 2, 3], id, by decide⟩

/-- Without a limit the last row is missing. A page size of minus one panics in both directions. -/
theorem connection_cut :
    nodes (tableStore threeRows) { maxPageSize := some 2, ascending := true, allowNoLimit := true }
        {} = .ok ([1, 2], none) ∧
      nodes (tableStore threeRows) {} { first := some (-1) } =
        .error (.panic "slice bounds out of range") ∧
      nodes (tableStore threeRows) {} { last := some (-1) } =
        .error (.panic "slice bounds out of range") := by
  refine ⟨by rfl, by rfl, by rfl⟩

theorem three_rows_enumerated :
    (∃ pages, followPrevious (tableStore threeRows) {} 2 4 none = some pages ∧
      pages.reverse.flatten = [3, 2, 1]) ∧
    nodes (tableStore threeRows) { allowNoLimit := true } {} = .ok ([3, 2, 1], none) ∧
    ∃ fault, nodes (tableStore threeRows) {} { last := some (-1) } = .error fault := by
  have h := connection_enumerated (tableStore threeRows) threeRows
  refine ⟨?_, ?_, ?_⟩
  · exact ((h {} (tableStore_serves threeRows)).1 2 (by decide) 4 (by decide)).2 (by decide)
  · exact ((h { allowNoLimit := true } (tableStore_serves threeRows)).2.1 rfl).mpr (by decide)
  · exact ((h {} (tableStore_serves threeRows)).2.2 { last := some (-1) } (.inr rfl)).mpr
      (by decide)

end ConnectionPaging
