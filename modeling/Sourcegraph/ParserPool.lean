import Sourcegraph.GoStrings

/-! # The pool of symbol parsers

Each parser type has a channel of its own. A call takes an entry from it and puts one back in a
deferred function: a parser, or the placeholder of one that failed. -/
namespace ParserPool

open GoStrings List

inductive Failure where
  | cancelled
  | creation (message : String)
  | parsing (message : String)

/-- Where a call of `handleParseRequest` is. -/
inductive Call (P : Type) where
  | waiting
  | creating
  | parsing (parser : P)
  | returning (entry : Option P) (err : Option String)
  | ended (err : Option Failure)

structure State (P : Type) where
  entries : List (Option P)
  calls : List (Call P)

/-- A panic while a parser is in use is an error of `parse`. -/
inductive Event (P : Type) where
  | receive
  | cancel
  | create (result : Except String P)
  | parse (err : Option String)
  | send

def newParserPool (newParser : ℕ → Except String P) : ℕ → Except String (List (Option P))
  | 0 => .ok []
  | n + 1 => do
    let entries ← newParserPool newParser n
    (newParser n).map fun parser => entries ++ [some parser]

/-- One step of a call; the capacity of the channel is `n`. -/
def Call.step (n : ℕ) (entries : List (Option P)) :
    Call P → Event P → Option (Call P × List (Option P))
  | .waiting, .receive => match entries with
    | [] => none
    | some parser :: rest => some (.parsing parser, rest)
    | none :: rest => some (.creating, rest)
  | .waiting, .cancel => some (.ended (some .cancelled), entries)
  | .creating, .create (.ok parser) => some (.parsing parser, entries)
  | .creating, .create (.error e) => some (.ended (some (.creation e)), entries)
  | .parsing parser, .parse none => some (.returning (some parser) none, entries)
  | .parsing _, .parse (some e) => some (.returning none (some e), entries)
  | .returning entry err, .send =>
    if entries.length < n then some (.ended (err.map .parsing), entries ++ [entry]) else none
  | _, _ => none

/-- A new call starts, or the call `i` takes a step, if it can. -/
def State.step (n : ℕ) (s : State P) : Option (ℕ × Event P) → State P
  | none => { s with calls := s.calls ++ [.waiting] }
  | some (i, e) => match (s.calls[i]?).bind (Call.step n s.entries · e) with
    | none => s
    | some (c, entries) => ⟨entries, s.calls.set i c⟩

def run (n : ℕ) (entries : List (Option P)) (es : List (Option (ℕ × Event P))) : State P :=
  es.foldl (State.step n) ⟨entries, []⟩

def Call.holds : Call P → Bool
  | .creating | .parsing _ | .returning _ _ => true
  | _ => false

/-- The call took a placeholder, and no parser could be created for it. -/
def Call.lost : Call P → Bool
  | .ended (some (.creation _)) => true
  | _ => false

theorem newParserPool_length (h : newParserPool newParser n = .ok entries) :
    entries.length = n := by
  induction n generalizing entries with
  | zero =>
    cases h
    rfl
  | succ n ih =>
    obtain ⟨rest, hrs, h⟩ := bind_eq_ok h
    obtain ⟨parser, -, rfl⟩ := map_eq_ok h
    rw [length_append, ih hrs, length_singleton]

theorem Call.step_entries (h : Call.step n entries c e = some (c', entries')) :
    entries'.length + (if c'.holds then 1 else 0) + (if c'.lost then 1 else 0) =
      entries.length + (if c.holds then 1 else 0) + if c.lost then 1 else 0 := by
  revert h
  fun_cases Call.step n entries c e with
  | case1 | case10 | case11 => nofun
  | case9 entry err =>
    rintro ⟨⟩
    cases err <;> simp [holds, lost]
  | _ =>
    rintro ⟨⟩
    simp [holds, lost]

def Conserved (n : ℕ) (s : State P) : Prop :=
  s.entries.length + s.calls.countP Call.holds + s.calls.countP Call.lost = n

theorem Conserved.step {s : State P} (h : Conserved n s) (e : Option (ℕ × Event P)) :
    Conserved n (s.step n e) := by
  unfold Conserved at *
  fun_cases State.step n s e with
  | case1 => simpa [Call.holds, Call.lost, countP_cons] using h
  | case2 => exact h
  | case3 i e c entries hst =>
    obtain ⟨c', hc, hst⟩ := Option.bind_eq_some_iff.mp hst
    obtain ⟨hi, rfl⟩ := List.getElem?_eq_some_iff.mp hc
    have hent := Call.step_entries hst
    have hho := boole_getElem_le_countP (p := Call.holds) hi
    have hlo := boole_getElem_le_countP (p := Call.lost) hi
    rw [countP_set hi, countP_set hi]
    dsimp only
    omega

/-- No slot is lost if and only if a parser can be created for each placeholder that is taken. A
call never blocks when it puts an entry back. -/
theorem slots_kept_iff {newParser : ℕ → Except String P} {entries : List (Option P)}
    (h : newParserPool newParser n = .ok entries) (es : List (Option (ℕ × Event P))) :
    let s := run n entries es
    (s.entries.length + s.calls.countP Call.holds = n ↔ ∀ c ∈ s.calls, c.lost = false) ∧
      ∀ entry err, .returning entry err ∈ s.calls → s.entries.length < n := by
  intro s
  have hco : Conserved n s := by
    refine foldlRecOn es _ ?_ fun s hs e _ => hs.step e
    simpa [Conserved] using newParserPool_length h
  unfold Conserved at hco
  constructor
  · have hlo := s.calls.countP_eq_zero (p := Call.lost)
    simp only [Bool.not_eq_true] at hlo
    rw [← hlo]
    omega
  · intro entry err hmem
    have := countP_pos_iff.mpr ⟨_, hmem, show Call.holds (.returning entry err) = true from rfl⟩
    omega

theorem failed_parse_kept : let s := run 1 [some 0] [none, some (0, .receive),
      some (0, .parse (some "failed")), some (0, .send)]
    newParserPool (fun i => .ok i) 1 = .ok [some 0] ∧
      s.entries.length + s.calls.countP Call.holds = 1 :=
  ⟨rfl, (@slots_kept_iff ℕ 1 (fun i => .ok i) [some 0] rfl _).1.mpr (by decide)⟩

/-- After a failed parse and a failed creation the only slot is gone, and a third call waits. -/
theorem slot_lost : newParserPool (fun i => .ok i) 1 = .ok [some 0] ∧
    ∃ err, run 1 [some 0] [none, some (0, .receive), some (0, .parse (some "failed")),
      some (0, .send), none, some (1, .receive), some (1, .create (.error "no process")), none] =
        ⟨[], [.ended err, .ended (some (.creation "no process")), .waiting]⟩ ∧
      Call.step 1 [] (.waiting : Call ℕ) .receive = none :=
  ⟨rfl, _, rfl, rfl⟩

end ParserPool
