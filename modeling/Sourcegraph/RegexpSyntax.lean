import Sourcegraph.GoRunes

/-! # Regular expressions of the Go library

The syntax trees of `regexp/syntax` and the texts they match. Greediness and the numbers of capture
groups, which never decide whether there is a match, are left out. -/
namespace RegexpSyntax

open GoStrings GoRunes

inductive Regexp where
  | noMatch
  | emptyMatch
  | literal (foldCase : Bool) (runes : List ℕ)
  | charClass (ranges : List (ℕ × ℕ))
  | anyCharNotNL
  | anyChar
  | beginLine
  | endLine
  | beginText
  | endText
  | wordBoundary
  | noWordBoundary
  | capture (sub : Regexp)
  | star (sub : Regexp)
  | plus (sub : Regexp)
  | quest (sub : Regexp)
  | repetition (min : ℕ) (max : Option ℕ) (sub : Regexp)
  | concat (subs : List Regexp)
  | alternate (subs : List Regexp)

/-- A set of matches: the text before one, the text matched and the text after it. -/
abbrev Language := List ℕ → List ℕ → List ℕ → Prop

def Language.empty : Language := fun _ s _ => s = []

def Language.seq (K L : Language) : Language := fun before s after =>
  ∃ s₁ s₂, s = s₁ ++ s₂ ∧ K before s₁ (s₂ ++ after) ∧ L (before ++ s₁) s₂ after

def Language.power (L : Language) : ℕ → Language
  | 0 => Language.empty
  | n + 1 => L.seq (L.power n)

def inClass (ranges : List (ℕ × ℕ)) (x : ℕ) : Prop := ∃ r ∈ ranges, r.1 ≤ x ∧ x ≤ r.2

instance (ranges : List (ℕ × ℕ)) (x : ℕ) : Decidable (inClass ranges x) :=
  inferInstanceAs (Decidable (∃ r ∈ ranges, r.1 ≤ x ∧ x ≤ r.2))

/-- The code points of `\w`. -/
def isWordChar (x : ℕ) : Bool :=
  (0x30 ≤ x && x ≤ 0x39) || (0x41 ≤ x && x ≤ 0x5A) || (0x61 ≤ x && x ≤ 0x7A) || x == 0x5F

def newline : ℕ := 0x0A

def AtWordBoundary (before after : List ℕ) : Prop :=
  before.getLast?.any isWordChar ≠ after.head?.any isWordChar

/-- A rune of the text is a spelling of a rune of a literal; `fold` is the relation of
`unicode.SimpleFold`. -/
def Spells (fold : ℕ → ℕ → Prop) (foldCase : Bool) (x r : ℕ) : Prop :=
  x = r ∨ foldCase = true ∧ fold r x

mutual

def Regexp.language (fold : ℕ → ℕ → Prop) : Regexp → Language
  | .noMatch => fun _ _ _ => False
  | .emptyMatch => Language.empty
  | .literal foldCase runes => fun _ s _ => List.Forall₂ (Spells fold foldCase) s runes
  | .charClass ranges => fun _ s _ => ∃ x, s = [x] ∧ inClass ranges x
  | .anyCharNotNL => fun _ s _ => ∃ x, s = [x] ∧ x ≠ newline
  | .anyChar => fun _ s _ => ∃ x, s = [x]
  | .beginLine => fun before s _ => s = [] ∧ ∀ x ∈ before.getLast?, x = newline
  | .endLine => fun _ s after => s = [] ∧ ∀ x ∈ after.head?, x = newline
  | .beginText => fun before s _ => s = [] ∧ before = []
  | .endText => fun _ s after => s = [] ∧ after = []
  | .wordBoundary => fun before s after => s = [] ∧ AtWordBoundary before after
  | .noWordBoundary => fun before s after => s = [] ∧ ¬ AtWordBoundary before after
  | .capture sub => sub.language fold
  | .star sub => fun before s after => ∃ n, (sub.language fold).power n before s after
  | .plus sub => fun before s after => ∃ n, 1 ≤ n ∧ (sub.language fold).power n before s after
  | .quest sub => fun before s after => ∃ n, n ≤ 1 ∧ (sub.language fold).power n before s after
  | .repetition min max sub => fun before s after =>
    ∃ n, min ≤ n ∧ (∀ m ∈ max, n ≤ m) ∧ (sub.language fold).power n before s after
  | .concat subs => concatLanguage fold subs
  | .alternate subs => alternateLanguage fold subs

def concatLanguage (fold : ℕ → ℕ → Prop) : List Regexp → Language
  | [] => Language.empty
  | sub :: subs => (sub.language fold).seq (concatLanguage fold subs)

def alternateLanguage (fold : ℕ → ℕ → Prop) : List Regexp → Language
  | [] => fun _ _ _ => False
  | sub :: subs => fun before s after =>
    sub.language fold before s after ∨ alternateLanguage fold subs before s after

end

/-- A byte string is matched as a whole somewhere in some text. -/
def InLanguage (fold : ℕ → ℕ → Prop) (re : Regexp) (s : Bytes) : Prop :=
  ∃ before after, re.language fold before (codes s) after

structure Match (fold : ℕ → ℕ → Prop) (re : Regexp) (buf : Bytes) where
  before : List Rune
  matched : List Rune
  after : List Rune
  runes_eq : runes buf = before ++ matched ++ after
  language : re.language fold (before.map fun r => r.char.toNat)
    (matched.map fun r => r.char.toNat) (after.map fun r => r.char.toNat)

def HasMatch (fold : ℕ → ℕ → Prop) (re : Regexp) (buf : Bytes) : Prop := Nonempty (Match fold re buf)

@[induction_eliminator]
theorem Regexp.induction {P : Regexp → Prop} (noMatch : P .noMatch) (emptyMatch : P .emptyMatch)
    (literal : ∀ foldCase runes, P (.literal foldCase runes))
    (charClass : ∀ ranges, P (.charClass ranges))
    (anyCharNotNL : P .anyCharNotNL) (anyChar : P .anyChar) (beginLine : P .beginLine)
    (endLine : P .endLine) (beginText : P .beginText) (endText : P .endText)
    (wordBoundary : P .wordBoundary) (noWordBoundary : P .noWordBoundary)
    (capture : ∀ sub, P sub → P (.capture sub)) (star : ∀ sub, P sub → P (.star sub))
    (plus : ∀ sub, P sub → P (.plus sub)) (quest : ∀ sub, P sub → P (.quest sub))
    (repetition : ∀ min max sub, P sub → P (.repetition min max sub))
    (concat : ∀ subs, (∀ sub ∈ subs, P sub) → P (.concat subs))
    (alternate : ∀ subs, (∀ sub ∈ subs, P sub) → P (.alternate subs)) (re : Regexp) : P re :=
  @Regexp.rec P (fun subs => ∀ sub ∈ subs, P sub) noMatch emptyMatch literal charClass
    anyCharNotNL anyChar beginLine endLine beginText endText wordBoundary noWordBoundary capture
    star plus quest repetition concat alternate (by simp)
    (fun head tail hh ht => by simpa using ⟨hh, ht⟩) re

theorem hasMatch_congr (h : re.language fold = re'.language fold) :
    HasMatch fold re buf ↔ HasMatch fold re' buf := by
  constructor
  · rintro ⟨m⟩
    exact ⟨⟨m.before, m.matched, m.after, m.runes_eq, h ▸ m.language⟩⟩
  · rintro ⟨m⟩
    exact ⟨⟨m.before, m.matched, m.after, m.runes_eq, h ▸ m.language⟩⟩

theorem concatLanguage_mem (hsub : sub ∈ subs) (h : concatLanguage fold subs pre s post) :
    ∃ pre' m post', m <:+: s ∧ sub.language fold pre' m post' := by
  induction subs generalizing pre s with
  | nil => cases hsub
  | cons first subs ih =>
    obtain ⟨s₁, s₂, rfl, h₁, h₂⟩ := h
    rcases List.mem_cons.mp hsub with rfl | hsub
    · exact ⟨_, s₁, _, (List.prefix_append s₁ s₂).isInfix, h₁⟩
    obtain ⟨pre', m, post', hm, hlg⟩ := ih hsub h₂
    exact ⟨pre', m, post', hm.trans (List.suffix_append s₁ s₂).isInfix, hlg⟩

theorem power_mem {L : Language} (hn : 1 ≤ n) (h : L.power n pre s post) :
    ∃ pre' m post', m <:+: s ∧ L pre' m post' := by
  obtain ⟨n, rfl⟩ := Nat.exists_eq_add_of_le' hn
  obtain ⟨s₁, s₂, rfl, h₁, -⟩ := h
  exact ⟨_, s₁, _, (List.prefix_append s₁ s₂).isInfix, h₁⟩

end RegexpSyntax
