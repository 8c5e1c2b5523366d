import Fluxion.Code.Reader
import Mathlib.Tactic.Common

/-!
# What the readers of code read

A list of lexemes is a factor, a product or a sum when the reader of that level takes it
off the front of every text that cannot go on with it.  Every product is a sum and every
factor a product; parentheses make a factor of a sum.

The depth of a list is the number of parentheses it nests, so that it is read with any
allowance that is at least as large.
-/

namespace Fluxion.Code

open Fluxion.Number

def inside (rounds parens : Nat) : Option (Reader Term) :=
  if parens = 0 then none else some (termWithin rounds (parens - 1))

/-- The text behind a phrase is over or goes on with an allowed lexeme. -/
def Follows (allowed : Lexeme → Prop) : List Lexeme → Prop
  | [] => True
  | l :: _ => allowed l

theorem Follows.mono {allowed allowed' : Lexeme → Prop} {ls : List Lexeme}
    (h : Follows allowed ls) (himp : ∀ l, allowed l → allowed' l) : Follows allowed' ls := by
  cases ls with
  | nil => trivial
  | cons l ls => exact himp l h

def EndsFactor (l : Lexeme) : Prop :=
  l ≠ .punctuation '('

def EndsProduct (l : Lexeme) : Prop :=
  EndsFactor l ∧ productOp? l = none

def EndsSum (l : Lexeme) : Prop :=
  EndsProduct l ∧ sumOp? l = none

theorem endsFactor_of_productOp? {l : Lexeme} {op : ArithmeticOp} (h : productOp? l = some op) :
    EndsFactor l := by
  rintro rfl
  exact Option.some_ne_none op h.symm

theorem endsProduct_of_sumOp? {l : Lexeme} {op : ArithmeticOp} (h : sumOp? l = some op) :
    EndsProduct l := by
  refine ⟨?_, ?_⟩
  · rintro rfl
    exact Option.some_ne_none op h.symm
  · rw [sumOp?.eq_def] at h
    split at h
    · rfl
    · rfl
    · exact absurd h (by simp)

theorem endsSum_close : EndsSum (.punctuation ')') := by
  refine ⟨⟨?_, rfl⟩, rfl⟩
  rw [EndsFactor]
  simp

theorem endsSum_comma : EndsSum (.punctuation ',') := by
  refine ⟨⟨?_, rfl⟩, rfl⟩
  rw [EndsFactor]
  simp

/-- What a phrase starts with. -/
def Opens : List Lexeme → Prop
  | [] => False
  | l :: _ => l ≠ .name "lambda" ∧ l ≠ .punctuation ')'

theorem Opens.append {ls ls' : List Lexeme} (h : Opens ls) : Opens (ls ++ ls') := by
  cases ls with
  | nil => exact h.elim
  | cons l ls => exact h

/-! ## Chains -/

section Chain

variable {op? : Lexeme → Option ArithmeticOp} {operand : Reader Term}

/-- The chain reads the lexemes `ls` as `t` and its loop goes on behind them, with a
round for each lexeme that is left. -/
def ChainReaches (op? : Lexeme → Option ArithmeticOp) (operand : Reader Term) (ls : List Lexeme)
    (t : Term) (rest : List Lexeme) : Prop :=
  ∃ rounds, rest.length ≤ rounds ∧
    chain op? operand (ls ++ rest) = chainFrom op? operand rounds t rest

theorem chainReaches_single {ls rest : List Lexeme} {t : Term}
    (h : operand (ls ++ rest) = some (t, rest)) : ChainReaches op? operand ls t rest :=
  ⟨rest.length, Nat.le_refl _, by rw [chain, h]⟩

theorem chainReaches_chain {ls ls' rest : List Lexeme} {l : Lexeme} {op : ArithmeticOp}
    {a b : Term} (ha : ChainReaches op? operand ls a (l :: (ls' ++ rest)))
    (hop : op? l = some op) (hb : operand (ls' ++ rest) = some (b, rest)) :
    ChainReaches op? operand (ls ++ l :: ls') (.binary op a b) rest := by
  obtain ⟨rounds, hrounds, hreach⟩ := ha
  cases rounds with
  | zero => simp at hrounds
  | succ rounds =>
      have hleft : rest.length ≤ rounds := by
        simp only [List.length_cons, List.length_append] at hrounds
        omega
      have hstep : chainFrom op? operand (rounds + 1) a (l :: (ls' ++ rest)) =
          chainFrom op? operand rounds (.binary op a b) rest := by
        simp [chainFrom, hop, hb]
      refine ⟨rounds, hleft, ?_⟩
      rw [List.append_assoc, List.cons_append, hreach, hstep]

/-- A chain ends in front of a lexeme that is no operator of it. -/
theorem ChainReaches.eq_some {ls rest : List Lexeme} {t : Term}
    (h : ChainReaches op? operand ls t rest) (hrest : Follows (fun l => op? l = none) rest) :
    chain op? operand (ls ++ rest) = some (t, rest) := by
  obtain ⟨rounds, _, hreach⟩ := h
  rw [hreach]
  cases rounds with
  | zero => rfl
  | succ rounds =>
      cases rest with
      | nil => rfl
      | cons l rest =>
          have hop : op? l = none := hrest
          simp [chainFrom, hop]

end Chain

/-! ## Levels -/

def FactorReads (depth : Nat) (ls : List Lexeme) (t : Term) : Prop :=
  ∀ rounds parens rest, depth ≤ rounds → depth ≤ parens → Follows EndsFactor rest →
    factor (inside rounds parens) (ls ++ rest) = some (t, rest)

def ProductReads (depth : Nat) (ls : List Lexeme) (t : Term) : Prop :=
  ∀ rounds parens rest, depth ≤ rounds → depth ≤ parens → Follows EndsFactor rest →
    ChainReaches productOp? (factor (inside rounds parens)) ls t rest

def SumReads (depth : Nat) (ls : List Lexeme) (t : Term) : Prop :=
  ∀ rounds parens rest, depth ≤ rounds → depth ≤ parens → Follows EndsProduct rest →
    ChainReaches sumOp? (chain productOp? (factor (inside rounds parens))) ls t rest

section Levels

variable {depth depth' : Nat} {ls ls' : List Lexeme} {l : Lexeme} {a b t : Term}
  {op : ArithmeticOp}

theorem FactorReads.product (h : FactorReads depth ls t) : ProductReads depth ls t := by
  intro rounds parens rest hrounds hparens hrest
  exact chainReaches_single (h rounds parens rest hrounds hparens hrest)

theorem ProductReads.chain_eq_some (h : ProductReads depth ls t) {rounds parens : Nat}
    {rest : List Lexeme} (hrounds : depth ≤ rounds) (hparens : depth ≤ parens)
    (hrest : Follows EndsProduct rest) :
    chain productOp? (factor (inside rounds parens)) (ls ++ rest) = some (t, rest) :=
  (h rounds parens rest hrounds hparens (hrest.mono fun _ h => h.1)).eq_some
    (hrest.mono fun _ h => h.2)

theorem ProductReads.sum (h : ProductReads depth ls t) : SumReads depth ls t := by
  intro rounds parens rest hrounds hparens hrest
  exact chainReaches_single (h.chain_eq_some hrounds hparens hrest)

theorem ProductReads.chain (ha : ProductReads depth ls a) (hb : FactorReads depth' ls' b)
    (hop : productOp? l = some op) :
    ProductReads (max depth depth') (ls ++ l :: ls') (.binary op a b) := by
  intro rounds parens rest hrounds hparens hrest
  obtain ⟨hrounds, hrounds'⟩ := Nat.max_le.mp hrounds
  obtain ⟨hparens, hparens'⟩ := Nat.max_le.mp hparens
  apply chainReaches_chain _ hop
  · exact hb rounds parens rest hrounds' hparens' hrest
  · exact ha rounds parens _ hrounds hparens (endsFactor_of_productOp? hop)

theorem SumReads.chain (ha : SumReads depth ls a) (hb : ProductReads depth' ls' b)
    (hop : sumOp? l = some op) :
    SumReads (max depth depth') (ls ++ l :: ls') (.binary op a b) := by
  intro rounds parens rest hrounds hparens hrest
  obtain ⟨hrounds, hrounds'⟩ := Nat.max_le.mp hrounds
  obtain ⟨hparens, hparens'⟩ := Nat.max_le.mp hparens
  apply chainReaches_chain _ hop
  · exact hb.chain_eq_some hrounds' hparens' hrest
  · exact ha rounds parens _ hrounds hparens (endsProduct_of_sumOp? hop)

/-- A sum is a whole term. -/
theorem SumReads.termWithin_eq_some (h : SumReads depth ls t) (hopens : Opens ls)
    {rounds parens : Nat} {rest : List Lexeme} (hrounds : depth ≤ rounds)
    (hparens : depth ≤ parens) (hrest : Follows EndsSum rest) :
    termWithin (rounds + 1) parens (ls ++ rest) = some (t, rest) := by
  have hchain := (h rounds parens rest hrounds hparens (hrest.mono fun _ h => h.1)).eq_some
    (hrest.mono fun _ h => h.2)
  rw [termWithin]
  · exact hchain
  · intro param after heq
    cases ls with
    | nil => exact hopens.elim
    | cons l ls => exact hopens.1 (List.cons.inj heq).1

/-! ## Factors -/

/-- A sign in front of what the readers take for a factor. -/
theorem factor_neg (inner : Option (Reader Term)) (ls : List Lexeme) :
    factor inner (.punctuation '-' :: ls) =
      (factor inner ls).map fun (t, rest) => (.neg t, rest) := by
  simp only [factor, spanSigns]
  cases atom inner (spanSigns ls).2 with
  | none => rfl
  | some read =>
      dsimp only
      cases callsFrom inner read.2.length read.1 read.2 with
      | none => rfl
      | some called => rfl

theorem FactorReads.neg (h : FactorReads depth ls a) :
    FactorReads depth (.punctuation '-' :: ls) (.neg a) := by
  intro rounds parens rest hrounds hparens hrest
  rw [List.cons_append, factor_neg, h rounds parens rest hrounds hparens hrest]
  rfl

/-- Without a parenthesis nothing is called. -/
theorem callsFrom_ends {inner : Option (Reader Term)} {rounds : Nat} {rest : List Lexeme}
    (hrest : Follows EndsFactor rest) : callsFrom inner rounds t rest = some (t, rest) := by
  cases rounds with
  | zero => rfl
  | succ rounds =>
      rw [callsFrom.eq_def]
      dsimp only
      split
      · exact absurd rfl hrest
      · rfl

/-- An atom in front of which no sign stands and behind which no call. -/
theorem factor_of_atom {inner : Option (Reader Term)} {ls rest : List Lexeme} {t : Term}
    (hsign : ∀ l ∈ ls.head?, l ≠ .punctuation '-' ∧ l ≠ .punctuation '+')
    (hatom : atom inner ls = some (t, rest)) (hrest : Follows EndsFactor rest) :
    factor inner ls = some (t, rest) := by
  have hspan : spanSigns ls = ([], ls) := by
    rw [spanSigns.eq_def]
    split
    · exact absurd rfl (hsign _ rfl).1
    · exact absurd rfl (hsign _ rfl).2
    · rfl
  have hcalls : callsFrom inner rest.length t rest = some (t, rest) := callsFrom_ends hrest
  simp [factor, hspan, hatom, hcalls, withSigns]

theorem factorReads_integer (n : Nat) : FactorReads 0 [.integer n] (.integer n) := by
  intro rounds parens rest _ _ hrest
  exact factor_of_atom (by simp) rfl hrest

theorem factorReads_float (x : Float) : FactorReads 0 [.float x] (.float x) := by
  intro rounds parens rest _ _ hrest
  exact factor_of_atom (by simp) rfl hrest

/-- A word that the reader takes for a name. -/
def PlainName (symbol : String) : Prop :=
  symbol ≠ "True" ∧ symbol ≠ "False" ∧ isFreeName symbol = true

theorem factorReads_name {symbol : String} (h : PlainName symbol) :
    FactorReads 0 [.name symbol] (.name symbol) := by
  intro rounds parens rest _ _ hrest
  apply factor_of_atom (by simp) _ hrest
  simp [atom, h.1, h.2.1, h.2.2]

/-- Inside one more parenthesis there is a reader that takes one less. -/
theorem SumReads.inside_eq (h : SumReads depth ls t) (hopens : Opens ls) {rounds parens : Nat}
    (hrounds : depth < rounds) (hparens : depth < parens) :
    ∃ inner, inside rounds parens = some inner ∧
      ∀ rest, Follows EndsSum rest → inner (ls ++ rest) = some (t, rest) := by
  obtain ⟨rounds, rfl⟩ := Nat.exists_eq_add_one_of_ne_zero (Nat.ne_zero_of_lt hrounds)
  obtain ⟨parens, rfl⟩ := Nat.exists_eq_add_one_of_ne_zero (Nat.ne_zero_of_lt hparens)
  refine ⟨termWithin (rounds + 1) parens, rfl, ?_⟩
  intro rest hrest
  exact h.termWithin_eq_some hopens (Nat.le_of_lt_succ hrounds) (Nat.le_of_lt_succ hparens) hrest

/-- A sum in parentheses is a factor. -/
theorem SumReads.group (h : SumReads depth ls t) (hopens : Opens ls) :
    FactorReads (depth + 1) (.punctuation '(' :: (ls ++ [.punctuation ')'])) t := by
  intro rounds parens rest hrounds hparens hrest
  obtain ⟨inner, hinside, hinner⟩ := h.inside_eq hopens hrounds hparens
  have hread : inner (ls ++ .punctuation ')' :: rest) = some (t, .punctuation ')' :: rest) :=
    hinner _ endsSum_close
  rw [hinside, List.cons_append, List.append_assoc]
  apply factor_of_atom (by simp) _ hrest
  simp [atom, hread]

/-- A name that is called: its arguments are read up to the closing parenthesis. -/
theorem factor_of_call {symbol : String} {inner : Reader Term} {ls rest : List Lexeme}
    {args : List Term} (hsymbol : PlainName symbol) (hargs : arguments inner ls = some (args, rest))
    (hrest : Follows EndsFactor rest) :
    factor (some inner) (.name symbol :: .punctuation '(' :: ls) =
      some (.call (.name symbol) args, rest) := by
  have hcalls : callsFrom (some inner) (ls.length + 1) (.name symbol) (.punctuation '(' :: ls) =
      some (.call (.name symbol) args, rest) := by
    rw [callsFrom]
    simp only [hargs]
    exact callsFrom_ends hrest
  simp [factor, spanSigns, atom, hsymbol.1, hsymbol.2.1, hsymbol.2.2, hcalls, withSigns]

theorem arguments_of_opens {inner : Reader Term} {rest : List Lexeme} {first : Term}
    (hopens : Opens ls) (hfirst : inner (ls ++ l :: rest) = some (first, l :: rest)) :
    arguments inner (ls ++ l :: rest) =
      argumentsFrom inner (rest.length + 2) [first] (l :: rest) := by
  rw [arguments]
  · simp only [hfirst]
    rfl
  · intro after heq
    cases ls with
    | nil => exact hopens.elim
    | cons l' ls => exact hopens.2 (List.cons.inj heq).1

theorem SumReads.call {symbol : String} (hsymbol : PlainName symbol) (h : SumReads depth ls a)
    (hopens : Opens ls) :
    FactorReads (depth + 1)
      (.name symbol :: .punctuation '(' :: (ls ++ [.punctuation ')']))
      (.call (.name symbol) [a]) := by
  intro rounds parens rest hrounds hparens hrest
  obtain ⟨inner, hinside, hinner⟩ := h.inside_eq hopens hrounds hparens
  have hargs : arguments inner (ls ++ .punctuation ')' :: rest) = some ([a], rest) := by
    rw [arguments_of_opens hopens (hinner _ endsSum_close)]
    rfl
  rw [hinside]
  simpa using factor_of_call hsymbol hargs hrest

theorem SumReads.call_pair {symbol : String} (hsymbol : PlainName symbol)
    (ha : SumReads depth ls a) (hopens : Opens ls) (hb : SumReads depth' ls' b)
    (hopens' : Opens ls') :
    FactorReads (max depth depth' + 1)
      (.name symbol :: .punctuation '(' ::
        (ls ++ .punctuation ',' :: (ls' ++ [.punctuation ')'])))
      (.call (.name symbol) [a, b]) := by
  intro rounds parens rest hrounds hparens hrest
  obtain ⟨hrounds, hrounds'⟩ := Nat.max_lt.mp hrounds
  obtain ⟨hparens, hparens'⟩ := Nat.max_lt.mp hparens
  obtain ⟨inner, hinside, hinner⟩ := ha.inside_eq hopens hrounds hparens
  obtain ⟨inner', hinside', hinner'⟩ := hb.inside_eq hopens' hrounds' hparens'
  obtain rfl : inner = inner' := Option.some.inj (hinside.symm.trans hinside')
  have hargs : arguments inner (ls ++ .punctuation ',' :: (ls' ++ .punctuation ')' :: rest)) =
      some ([a, b], rest) := by
    rw [arguments_of_opens hopens (hinner _ endsSum_comma), argumentsFrom]
    · simp only [hinner' (.punctuation ')' :: rest) endsSum_close]
      rfl
    · intro after heq
      cases ls' with
      | nil => exact hopens'.elim
      | cons l' ls' => exact hopens'.2 (List.cons.inj heq).1
  rw [hinside]
  simpa using factor_of_call hsymbol hargs hrest

end Levels

end Fluxion.Code
