import Fluxion.Source.Parser
import Fluxion.Proofs.Outcome
import Fluxion.Proofs.Expr.Shape

/-!
# The grammar of expressions

The grammar is stated as six relations between lists of tokens and trees, one for
each kind of phrase:

* a sum is `product ((+|-) product)*` and a product `operand ((*|/) operand)*`,
  both grouped to the left;
* an operand is `- operand`, `+ operand` or a power, and a power is
  `primary (^ operand)?`;
* a primary is a number, a name, a call `name ( sum (, sum)* )` or a group
  `( sum )`.

The number that stands in each relation is the nesting of the derivation: how
many operands lie inside one another around its innermost token.  Nothing bounds
it in the grammar itself.
-/

namespace Fluxion.Source

open Fluxion.Decimal Fluxion.Text

/-- Whether a name may be called with so many arguments: a function of the table
with its arity, or, if `lenient` holds, any name outside the table. -/
def Callable (lenient : Bool) (name : String) (count : Nat) : Prop :=
  match Function.ofName? name with
  | some f => count = f.arity
  | none => lenient = true

mutual

inductive SumPhrase (lenient : Bool) : Nat → List Token → Tree → Prop
  | single {n : Nat} {ts : List Token} {e : Tree} (h : ProductPhrase lenient n ts e) :
      SumPhrase lenient n ts e
  | chain {m n : Nat} {ts us : List Token} {sign : Token} {op : BinaryOp} {a b : Tree}
      (ha : SumPhrase lenient m ts a) (hop : sumOp? sign.kind = some op)
      (hb : ProductPhrase lenient n us b) :
      SumPhrase lenient (max m n) (ts ++ sign :: us) (.binary op a b)

inductive ProductPhrase (lenient : Bool) : Nat → List Token → Tree → Prop
  | single {n : Nat} {ts : List Token} {e : Tree} (h : OperandPhrase lenient n ts e) :
      ProductPhrase lenient n ts e
  | chain {m n : Nat} {ts us : List Token} {sign : Token} {op : BinaryOp} {a b : Tree}
      (ha : ProductPhrase lenient m ts a) (hop : productOp? sign.kind = some op)
      (hb : OperandPhrase lenient n us b) :
      ProductPhrase lenient (max m n) (ts ++ sign :: us) (.binary op a b)

/-- Each operand is one level of nesting for all of its tokens. -/
inductive OperandPhrase (lenient : Bool) : Nat → List Token → Tree → Prop
  | minus {n : Nat} {ts : List Token} {sign : Token} {a : Tree} (hsign : sign.kind = .minus)
      (ha : OperandPhrase lenient n ts a) :
      OperandPhrase lenient (n + 1) (sign :: ts) (.unary .neg a)
  | plus {n : Nat} {ts : List Token} {sign : Token} {a : Tree} (hsign : sign.kind = .plus)
      (ha : OperandPhrase lenient n ts a) : OperandPhrase lenient (n + 1) (sign :: ts) a
  | power {n : Nat} {ts : List Token} {e : Tree} (h : PowerPhrase lenient n ts e) :
      OperandPhrase lenient (n + 1) ts e

inductive PowerPhrase (lenient : Bool) : Nat → List Token → Tree → Prop
  | base {n : Nat} {ts : List Token} {e : Tree} (h : PrimaryPhrase lenient n ts e) :
      PowerPhrase lenient n ts e
  | raised {m n : Nat} {ts us : List Token} {caret : Token} {a b : Tree}
      (ha : PrimaryPhrase lenient m ts a) (hcaret : caret.kind = .caret)
      (hb : OperandPhrase lenient n us b) :
      PowerPhrase lenient (max m n) (ts ++ caret :: us) (.binary .pow a b)

/-- A name by itself is a constant or a variable; the name of a function is
neither. -/
inductive PrimaryPhrase (lenient : Bool) : Nat → List Token → Tree → Prop
  | number {t : Token} {value : Float} (ht : t.kind = .number)
      (hvalue : readFloat? t.text = some value) : PrimaryPhrase lenient 0 [t] (.const value)
  | constant {t : Token} {value : Float} (ht : t.kind = .name)
      (hvalue : namedConstant? t.text = some value) : PrimaryPhrase lenient 0 [t] (.const value)
  | free {t : Token} (ht : t.kind = .name) (hconstant : namedConstant? t.text = none)
      (hfunction : Function.ofName? t.text = none) : PrimaryPhrase lenient 0 [t] (.var t.text)
  | group {n : Nat} {ts : List Token} {opener closer : Token} {e : Tree}
      (hopener : opener.kind = .lparen) (he : SumPhrase lenient n ts e)
      (hcloser : closer.kind = .rparen) :
      PrimaryPhrase lenient n (opener :: (ts ++ [closer])) e
  | call {n : Nat} {ts : List Token} {name opener closer : Token} {args : List Tree}
      (hname : name.kind = .name) (hopener : opener.kind = .lparen)
      (hargs : ArgumentsPhrase lenient n ts args) (hcloser : closer.kind = .rparen)
      (hcallable : Callable lenient name.text args.length) :
      PrimaryPhrase lenient n (name :: opener :: (ts ++ [closer])) (.call name.text args)

inductive ArgumentsPhrase (lenient : Bool) : Nat → List Token → List Tree → Prop
  | single {n : Nat} {ts : List Token} {e : Tree} (h : SumPhrase lenient n ts e) :
      ArgumentsPhrase lenient n ts [e]
  | more {m n : Nat} {ts us : List Token} {comma : Token} {args : List Tree} {e : Tree}
      (hargs : ArgumentsPhrase lenient m ts args) (hcomma : comma.kind = .comma)
      (he : SumPhrase lenient n us e) :
      ArgumentsPhrase lenient (max m n) (ts ++ comma :: us) (args ++ [e])

end

/-- What the tokens of a text denote: a tree that the grammar derives from them with
no token inside more than 64 operands, and that is at most 512 levels deep. -/
def Denotes (lenient : Bool) (ts : List Token) (e : Tree) : Prop :=
  (∃ n, n ≤ 64 ∧ SumPhrase lenient n ts e) ∧ e.height ≤ 512

/-! ## Readers read phrases -/

/-- Whatever the reader takes from the front is a phrase of nesting at most
`bound`. -/
def ReadsOnly (phrase : Nat → List Token → Tree → Prop) (bound : Nat) (read : Reader Tree) :
    Prop :=
  ∀ ts e rest, read ts = .ok (e, rest) → ∃ n us, n ≤ bound ∧ ts = us ++ rest ∧ phrase n us e

theorem peek_eq_ok {ts : List Token} {t : Token} (h : peek ts = .ok t) : ts = t :: ts.tail := by
  cases ts with
  | nil => simp [peek] at h
  | cons first rest =>
      obtain rfl : first = t := by simpa [peek] using h
      rfl

section Chain

variable {op? : TokenKind → Option BinaryOp} {part whole : Nat → List Token → Tree → Prop}
  {bound : Nat} {operand : Reader Tree}

/-- The loop of a chain extends the phrase that it starts with. -/
theorem chainFrom_readsOnly (hoperand : ReadsOnly part bound operand)
    (hchain : ∀ {m n ts us sign op a b}, whole m ts a → op? sign.kind = some op →
      part n us b → whole (max m n) (ts ++ sign :: us) (.binary op a b))
    {rounds m : Nat} {before ts rest : List Token} {left e : Tree} (hm : m ≤ bound)
    (hleft : whole m before left) (h : chainFrom op? operand rounds left ts = .ok (e, rest)) :
    ∃ n us, n ≤ bound ∧ ts = us ++ rest ∧ whole n (before ++ us) e := by
  induction rounds generalizing m before left ts with
  | zero =>
      obtain ⟨rfl, rfl⟩ : left = e ∧ ts = rest := by simpa [chainFrom] using h
      exact ⟨m, [], hm, rfl, by simpa using hleft⟩
  | succ rounds ih =>
      obtain ⟨sign, hpeek, hrest⟩ := bind_eq_ok.mp h
      have hts := peek_eq_ok hpeek
      split at hrest
      · obtain ⟨rfl, rfl⟩ : left = e ∧ ts = rest := by
          simpa [pure, Except.pure] using hrest
        exact ⟨m, [], hm, rfl, by simpa using hleft⟩
      · next op hop =>
          obtain ⟨⟨right, after⟩, hright, hloop⟩ := bind_eq_ok.mp hrest
          obtain ⟨k, vs, hk, hvs, hphrase⟩ := hoperand _ _ _ hright
          obtain ⟨n, us, hn, hus, hwhole⟩ :=
            ih (Nat.max_le.mpr ⟨hm, hk⟩) (hchain hleft hop hphrase) hloop
          refine ⟨n, sign :: vs ++ us, hn, ?_, by simpa using hwhole⟩
          rw [hts, hvs, hus]
          simp

/-- A chain of phrases is a phrase. -/
theorem chain_readsOnly (hoperand : ReadsOnly part bound operand)
    (hsingle : ∀ {n ts e}, part n ts e → whole n ts e)
    (hchain : ∀ {m n ts us sign op a b}, whole m ts a → op? sign.kind = some op →
      part n us b → whole (max m n) (ts ++ sign :: us) (.binary op a b)) :
    ReadsOnly whole bound (chain op? operand) := by
  intro ts e rest h
  obtain ⟨⟨left, after⟩, hleft, hloop⟩ := bind_eq_ok.mp h
  obtain ⟨m, vs, hm, hvs, hphrase⟩ := hoperand _ _ _ hleft
  obtain ⟨n, us, hn, hus, hwhole⟩ :=
    chainFrom_readsOnly hoperand hchain hm (hsingle hphrase) hloop
  exact ⟨n, vs ++ us, hn, by rw [hvs, hus, List.append_assoc], hwhole⟩

end Chain

theorem ArgumentsPhrase.length_pos {lenient : Bool} {n : Nat} {ts : List Token}
    {args : List Tree} (h : ArgumentsPhrase lenient n ts args) : 0 < args.length := by
  cases h <;> simp

section Readers

variable {lenient : Bool} {bound : Nat}

theorem product_readsOnly {operand : Reader Tree}
    (hoperand : ReadsOnly (OperandPhrase lenient) bound operand) :
    ReadsOnly (ProductPhrase lenient) bound (chain productOp? operand) :=
  chain_readsOnly hoperand .single .chain

/-- If operands are read only as phrases, so are sums of products of them. -/
theorem sum_readsOnly {operand : Reader Tree}
    (hoperand : ReadsOnly (OperandPhrase lenient) bound operand) :
    ReadsOnly (SumPhrase lenient) bound (sum operand) :=
  chain_readsOnly (product_readsOnly hoperand) .single .chain

theorem close_eq_ok {opener : Token} {ts rest : List Token} {u : Unit}
    (h : close opener ts = .ok (u, rest)) :
    ∃ closer, closer.kind = .rparen ∧ ts = closer :: rest := by
  obtain ⟨closer, hpeek, hrest⟩ := bind_eq_ok.mp h
  have hts := peek_eq_ok hpeek
  split at hrest
  · next hkind =>
      obtain rfl : ts.tail = rest := by simpa [pure, Except.pure] using hrest
      exact ⟨closer, hkind, hts⟩
  · exact absurd hrest (by simp)
  · exact absurd hrest (by simp)

/-- What the loop of an argument list adds to the arguments that it starts with.  A
function of the table never gets more than it takes. -/
theorem argumentsFrom_reads {name : String} {function? : Option Function}
    {argument : Reader Tree} (hargument : ReadsOnly (SumPhrase lenient) bound argument)
    {rounds m : Nat} {before ts rest : List Token} {read args : List Tree} (hm : m ≤ bound)
    (hread : ArgumentsPhrase lenient m before read)
    (harity : ∀ f, function? = some f → read.length ≤ f.arity)
    (h : argumentsFrom name function? argument rounds read ts = .ok (args, rest)) :
    ∃ n us, n ≤ bound ∧ ts = us ++ rest ∧ ArgumentsPhrase lenient n (before ++ us) args ∧
      ∀ f, function? = some f → args.length ≤ f.arity := by
  induction rounds generalizing m before read ts with
  | zero =>
      obtain ⟨rfl, rfl⟩ : read = args ∧ ts = rest := by simpa [argumentsFrom] using h
      exact ⟨m, [], hm, rfl, by simpa using hread, harity⟩
  | succ rounds ih =>
      obtain ⟨comma, hpeek, hrest⟩ := bind_eq_ok.mp h
      have hts := peek_eq_ok hpeek
      split_ifs at hrest with hcomma
      · have hstep : (∀ f, function? = some f → read.length < f.arity) ∧
            ∃ a after, argument ts.tail = .ok (a, after) ∧
              argumentsFrom name function? argument rounds (read ++ [a]) after =
                .ok (args, rest) := by
          split at hrest
          · next f =>
              split_ifs at hrest with hfull
              obtain ⟨⟨a, after⟩, ha, hloop⟩ := bind_eq_ok.mp hrest
              refine ⟨?_, a, after, ha, hloop⟩
              intro g hg
              obtain rfl : f = g := Option.some.inj hg
              omega
          · obtain ⟨⟨a, after⟩, ha, hloop⟩ := bind_eq_ok.mp hrest
            exact ⟨by simp, a, after, ha, hloop⟩
        obtain ⟨hroom, a, after, ha, hloop⟩ := hstep
        obtain ⟨k, vs, hk, hvs, hphrase⟩ := hargument _ _ _ ha
        have hroom' : ∀ f, function? = some f → (read ++ [a]).length ≤ f.arity := by
          intro f hf
          rw [List.length_append]
          exact hroom f hf
        obtain ⟨n, us, hn, hus, hargs, hlength⟩ :=
          ih (Nat.max_le.mpr ⟨hm, hk⟩) (.more hread hcomma hphrase) hroom' hloop
        refine ⟨n, comma :: vs ++ us, hn, ?_, by simpa using hargs, hlength⟩
        rw [hts, hvs, hus]
        simp
      · obtain ⟨rfl, rfl⟩ : read = args ∧ ts = rest := by
          simpa [pure, Except.pure] using hrest
        exact ⟨m, [], hm, rfl, by simpa using hread, harity⟩

theorem callOf_reads {name : Token} (hname : name.kind = .name) {argument : Reader Tree}
    (hargument : ReadsOnly (SumPhrase lenient) bound argument) {opener : Token}
    (hopener : opener.kind = .lparen) {ts rest : List Token} {e : Tree}
    (h : callOf lenient name argument (opener :: ts) = .ok (e, rest)) :
    ∃ n us, n ≤ bound ∧ ts = us ++ rest ∧
      PrimaryPhrase lenient n (name :: opener :: us) e := by
  rw [callOf] at h
  dsimp only at h
  split_ifs at h with hunknown
  obtain ⟨opener', hpeek, hrest⟩ := bind_eq_ok.mp h
  obtain rfl : opener = opener' := by simpa [peek] using hpeek
  obtain ⟨⟨a, after⟩, ha, hrest⟩ := bind_eq_ok.mp hrest
  obtain ⟨⟨args, behind⟩, hargs, hrest⟩ := bind_eq_ok.mp hrest
  obtain ⟨⟨u, final⟩, hclose, hend⟩ := bind_eq_ok.mp hrest
  obtain ⟨rfl, rfl⟩ : Expr.call name.text args = e ∧ final = rest := by
    simpa [pure, Except.pure] using hend
  obtain ⟨m, vs, hm, hvs, hfirst⟩ := hargument _ _ _ ha
  obtain ⟨closer, hcloser, hbehind⟩ := close_eq_ok hclose
  have hone : ∀ f, Function.ofName? name.text = some f → [a].length ≤ f.arity := by
    intro f _
    exact Nat.le_refl 1
  obtain ⟨n, us, hn, hus, hphrase, harity⟩ :=
    argumentsFrom_reads hargument hm (.single hfirst) hone hargs
  have hcallable : Callable lenient name.text args.length := by
    rw [Callable]
    cases hf : Function.ofName? name.text with
    | some f => exact Nat.le_antisymm (harity f hf) hphrase.length_pos
    | none => simpa [hf] using hunknown
  refine ⟨n, vs ++ us ++ [closer], hn, ?_, .call hname hopener hphrase hcloser hcallable⟩
  have hafter : after = us ++ closer :: final := by rw [← hbehind, ← hus]
  calc
    ts = vs ++ after := hvs
    _ = vs ++ us ++ [closer] ++ final := by simp [hafter]

theorem bareName_reads {name : Token} (hname : name.kind = .name) {ts rest : List Token}
    {e : Tree} (h : bareName name ts = .ok (e, rest)) :
    ts = rest ∧ PrimaryPhrase lenient 0 [name] e := by
  rw [bareName] at h
  split at h
  · next value hvalue =>
      obtain ⟨rfl, rfl⟩ : Expr.const value = e ∧ ts = rest := by simpa using h
      exact ⟨rfl, .constant hname hvalue⟩
  · next hconstant =>
      split at h
      · obtain ⟨t, _, herror⟩ := bind_eq_ok.mp h
        exact absurd herror (by simp)
      · next hfunction =>
          obtain ⟨rfl, rfl⟩ : Expr.var name.text = e ∧ ts = rest := by simpa using h
          exact ⟨rfl, .free hname hconstant hfunction⟩

/-- What a primary reads, one case for each kind of token that may start it. -/
theorem primary_readsOnly {operand : Nat → Reader Tree} {groups : Nat}
    (hoperand : ReadsOnly (OperandPhrase lenient) bound (operand (groups + 1))) :
    ReadsOnly (PrimaryPhrase lenient) bound (primary lenient operand groups) := by
  intro ts e rest h
  obtain ⟨t, hpeek, hrest⟩ := bind_eq_ok.mp h
  have hts := peek_eq_ok hpeek
  split at hrest
  · next hkind =>
      split at hrest
      · next value hvalue =>
          obtain ⟨rfl, rfl⟩ : Expr.const value = e ∧ ts.tail = rest := by
            simpa [pure, Except.pure] using hrest
          exact ⟨0, [t], Nat.zero_le _, hts, .number hkind hvalue⟩
      · exact absurd hrest (by simp)
  · next hkind =>
      obtain ⟨next, hnext, hrest⟩ := bind_eq_ok.mp hrest
      have htail := peek_eq_ok hnext
      split_ifs at hrest with hopener
      · rw [htail] at hrest
        obtain ⟨n, us, hn, hus, hphrase⟩ :=
          callOf_reads hkind (sum_readsOnly hoperand) hopener hrest
        refine ⟨n, t :: next :: us, hn, ?_, hphrase⟩
        rw [hts, htail, hus]
        rfl
      · have hbare : ts.tail = rest ∧ PrimaryPhrase lenient 0 [t] e := bareName_reads hkind hrest
        exact ⟨0, [t], Nat.zero_le _, hbare.1 ▸ hts, hbare.2⟩
  · next hkind =>
      obtain ⟨⟨inner, after⟩, hinner, hrest⟩ := bind_eq_ok.mp hrest
      obtain ⟨⟨u, final⟩, hclose, hend⟩ := bind_eq_ok.mp hrest
      obtain ⟨rfl, rfl⟩ : inner = e ∧ final = rest := by
        simpa [pure, Except.pure] using hend
      obtain ⟨n, us, hn, hus, hphrase⟩ := sum_readsOnly hoperand _ _ _ hinner
      obtain ⟨closer, hcloser, hafter⟩ := close_eq_ok hclose
      refine ⟨n, t :: (us ++ [closer]), hn, ?_, .group hkind hphrase hcloser⟩
      rw [hts, hus, hafter]
      simp
  · split_ifs at hrest
  · exact absurd hrest (by simp)

theorem power_readsOnly {operand : Nat → Reader Tree} {groups : Nat}
    (hoperand : ∀ groups, ReadsOnly (OperandPhrase lenient) bound (operand groups)) :
    ReadsOnly (PowerPhrase lenient) bound (power lenient operand groups) := by
  intro ts e rest h
  obtain ⟨⟨base, after⟩, hbase, hrest⟩ := bind_eq_ok.mp h
  obtain ⟨m, us, hm, hus, hprimary⟩ := primary_readsOnly (hoperand _) _ _ _ hbase
  obtain ⟨caret, hpeek, hrest⟩ := bind_eq_ok.mp hrest
  have hafter := peek_eq_ok hpeek
  split_ifs at hrest with hcaret
  · obtain ⟨⟨exponent, behind⟩, hexponent, hend⟩ := bind_eq_ok.mp hrest
    obtain ⟨rfl, rfl⟩ : Expr.binary .pow base exponent = e ∧ behind = rest := by
      simpa [pure, Except.pure] using hend
    obtain ⟨n, vs, hn, hvs, hphrase⟩ := hoperand _ _ _ _ hexponent
    refine ⟨max m n, us ++ caret :: vs, Nat.max_le.mpr ⟨hm, hn⟩, ?_,
      .raised hprimary hcaret hphrase⟩
    rw [hus, hafter, hvs]
    simp
  · obtain ⟨rfl, rfl⟩ : base = e ∧ after = rest := by simpa [pure, Except.pure] using hrest
    exact ⟨m, us, hm, hus, .base hprimary⟩

/-- An operand reader with `left` levels reads operands of nesting at most `left`. -/
theorem operand_readsOnly (left groups : Nat) :
    ReadsOnly (OperandPhrase lenient) left (operand lenient left groups) := by
  induction left generalizing groups with
  | zero =>
      intro ts e rest h
      obtain ⟨t, _, herror⟩ := bind_eq_ok.mp h
      exact absurd herror (by simp)
  | succ left ih =>
      intro ts e rest h
      obtain ⟨sign, hpeek, hrest⟩ := bind_eq_ok.mp h
      have hts := peek_eq_ok hpeek
      split at hrest
      · next hsign =>
          obtain ⟨⟨a, after⟩, ha, hend⟩ := bind_eq_ok.mp hrest
          obtain ⟨rfl, rfl⟩ : Expr.unary .neg a = e ∧ after = rest := by
            simpa [pure, Except.pure] using hend
          obtain ⟨n, us, hn, hus, hphrase⟩ := ih groups _ _ _ ha
          exact ⟨n + 1, sign :: us, Nat.succ_le_succ hn, by rw [hts, hus]; rfl,
            .minus hsign hphrase⟩
      · next hsign =>
          obtain ⟨n, us, hn, hus, hphrase⟩ := ih groups _ _ _ hrest
          exact ⟨n + 1, sign :: us, Nat.succ_le_succ hn, by rw [hts, hus]; rfl,
            .plus hsign hphrase⟩
      · obtain ⟨n, us, hn, hus, hphrase⟩ := power_readsOnly ih _ _ _ hrest
        exact ⟨n + 1, us, Nat.succ_le_succ hn, hus, .power hphrase⟩

end Readers

end Fluxion.Source
