import Fluxion.Proofs.Source.Completeness

/-!
# Phrases that nest too deeply

What the grammar derives with more nesting than there are levels left is refused, and the
nesting is the reason that is given: everything in front of the first operand that is too
deep is read as in `Completeness`, and that operand ends the reading.

So tokens that make a phrase are read, or refused for one of the two bounds.
-/

namespace Fluxion.Source

open Fluxion.Text

/-- Reading ended because no level of nesting was left. -/
def NestsTooDeep {β : Type} (outcome : Except Failure β) : Prop :=
  ∃ error, outcome = .error (.rejected error) ∧ error.cause = .nesting maxNesting

theorem NestsTooDeep.bind {β γ : Type} {first : Except Failure β} (h : NestsTooDeep first)
    (next : β → Except Failure γ) : NestsTooDeep (first >>= next) := by
  obtain ⟨error, rfl, hcause⟩ := h
  exact ⟨error, rfl, hcause⟩

theorem NestsTooDeep.map {β γ : Type} {first : Except Failure β} (h : NestsTooDeep first)
    (f : β → γ) : NestsTooDeep (f <$> first) := by
  obtain ⟨error, rfl, hcause⟩ := h
  exact ⟨error, rfl, hcause⟩

section Chain

variable {op? : TokenKind → Option BinaryOp} {operand : Reader Tree}

/-- A chain whose first operand is refused is refused. -/
theorem chain_nestsTooDeep {ts : List Token} (h : NestsTooDeep (operand ts)) :
    NestsTooDeep (chain op? operand ts) :=
  h.bind _

/-- A chain is refused with the operand behind what it has read. -/
theorem ChainReaches.nestsTooDeep {ts us : List Token} {sign : Token} {op : BinaryOp} {a : Tree}
    (ha : ChainReaches op? operand ts a (sign :: us)) (hop : op? sign.kind = some op)
    (hb : NestsTooDeep (operand us)) : NestsTooDeep (chain op? operand (ts ++ sign :: us)) := by
  obtain ⟨rounds, hrounds, hreach⟩ := ha
  cases rounds with
  | zero => simp at hrounds
  | succ rounds =>
      have hstep : chainFrom op? operand (rounds + 1) a (sign :: us) =
          operand us >>= fun read => chainFrom op? operand rounds (.binary op a read.1) read.2 := by
        simp [chainFrom, peek, hop]
      rw [hreach, hstep]
      exact hb.bind _

end Chain

section Readers

variable {lenient : Bool} {left groups : Nat}

theorem operand_zero_nestsTooDeep {ts : List Token} (h : ts ≠ []) :
    NestsTooDeep (operand lenient 0 groups ts) := by
  obtain ⟨t, us, rfl⟩ := List.exists_cons_of_ne_nil h
  exact ⟨_, rfl, rfl⟩

theorem operand_minus_nestsTooDeep {sign : Token} {ts : List Token} (hsign : sign.kind = .minus)
    (h : NestsTooDeep (operand lenient left groups ts)) :
    NestsTooDeep (operand lenient (left + 1) groups (sign :: ts)) := by
  simpa [operand, peek, hsign] using h.map _

theorem operand_plus_nestsTooDeep {sign : Token} {ts : List Token} (hsign : sign.kind = .plus)
    (h : NestsTooDeep (operand lenient left groups ts)) :
    NestsTooDeep (operand lenient (left + 1) groups (sign :: ts)) := by
  simpa [operand, peek, hsign] using h

theorem operand_power_nestsTooDeep {n : Nat} {ts rest : List Token} {e : Tree}
    (hphrase : PowerPhrase lenient n ts e)
    (h : NestsTooDeep (power lenient (operand lenient left) groups (ts ++ rest))) :
    NestsTooDeep (operand lenient (left + 1) groups (ts ++ rest)) := by
  obtain ⟨t, us, rfl, hkind⟩ := hphrase.head
  rw [operand]
  rcases hkind with hkind | hkind | hkind <;> simpa [peek, hkind] using h

variable {name : String} {function? : Option Function} {argument : Reader Tree}

def readArguments (name : String) (function? : Option Function) (argument : Reader Tree) :
    Reader (List Tree) :=
  fun ts => do
    let (first, ts) ← argument ts
    argumentsFrom name function? argument ts.length [first] ts

/-- An argument list is refused with the argument behind what it has read. -/
theorem ArgumentsReach.nestsTooDeep {ts us : List Token} {comma : Token} {args : List Tree}
    (hargs : ArgumentsReach name function? argument ts args (comma :: us))
    (hcomma : comma.kind = .comma) (hroom : ∀ f, function? = some f → args.length < f.arity)
    (he : NestsTooDeep (argument us)) :
    NestsTooDeep (readArguments name function? argument (ts ++ comma :: us)) := by
  obtain ⟨first, after, rounds, hrounds, hfirst, hreach⟩ := hargs
  cases rounds with
  | zero => simp at hrounds
  | succ rounds =>
      have hstep : argumentsFrom name function? argument (rounds + 1) args (comma :: us) =
          argument us >>= fun (a, rest) =>
            argumentsFrom name function? argument rounds (args ++ [a]) rest := by
        cases function? with
        | none => simp [argumentsFrom, peek, hcomma]
        | some f =>
            have hfull : ¬ f.arity ≤ args.length := Nat.not_le.mpr (hroom f rfl)
            simp [argumentsFrom, peek, hcomma, hfull]
      rw [readArguments, hfirst, ok_bind]
      dsimp only
      rw [hreach, hstep]
      exact he.bind _

/-- A call that is not refused at once reads its arguments and closes. -/
theorem callOf_cons {name opener : Token} {ts : List Token}
    (hknown : lenient = true ∨ (Function.ofName? name.text).isSome = true) :
    callOf lenient name argument (opener :: ts) =
      readArguments name.text (Function.ofName? name.text) argument ts >>= fun args =>
        close opener args.2 >>= fun closed => .ok (.call name.text args.1, closed.2) := by
  have hknown : ((Function.ofName? name.text).isNone && !lenient) = false := by
    rcases hknown with rfl | hsome
    · exact Bool.and_false _
    · rw [Option.isNone_eq_false_iff.mpr hsome, Bool.false_and]
  rw [callOf]
  dsimp only
  rw [hknown, if_neg Bool.false_ne_true, readArguments, bind_assoc]
  rfl

/-- A call is refused with its arguments. -/
theorem callOf_nestsTooDeep {name opener : Token} {ts : List Token} {count : Nat}
    (hcallable : Callable lenient name.text count)
    (h : NestsTooDeep (readArguments name.text (Function.ofName? name.text) argument ts)) :
    NestsTooDeep (callOf lenient name argument (opener :: ts)) := by
  have hknown : lenient = true ∨ (Function.ofName? name.text).isSome = true := by
    rw [Callable] at hcallable
    cases hf : Function.ofName? name.text <;> simp_all
  rw [callOf_cons hknown]
  exact h.bind _

end Readers

/-! The induction is on the derivation.  A phrase of two parts is too deep for its first
part, or the first part is read and the second one is too deep. -/

mutual

/-- A phrase that nests deeper than is left is refused for this reason and no other. -/
theorem SumPhrase.nestsTooDeep {lenient : Bool} : ∀ {n : Nat} {ts : List Token} {e : Tree},
    SumPhrase lenient n ts e → ∀ {left groups : Nat} {rest : List Token}, left < n →
      StartsWith EndsProduct rest →
      NestsTooDeep (sum (operand lenient left groups) (ts ++ rest))
  | _, _, _, .single h, left, groups, rest, hn, hrest =>
      chain_nestsTooDeep (h.nestsTooDeep hn (hrest.mono fun _ h => h.1))
  | _, _, _, @SumPhrase.chain _ m n ts us sign op a b ha hop hb, left, groups, rest, hn,
      hrest => by
      have hoperand : StartsWith EndsOperand rest := hrest.mono fun _ h => h.1
      have hsign : StartsWith EndsProduct (sign :: (us ++ rest)) := endsProduct_of_sumOp? hop
      rw [List.append_assoc, List.cons_append]
      by_cases hm : m ≤ left
      · have hk : left < n := by omega
        exact (ha.reaches hm hsign).nestsTooDeep hop (hb.nestsTooDeep hk hoperand)
      · exact ha.nestsTooDeep (Nat.not_le.mp hm) hsign

theorem ProductPhrase.nestsTooDeep {lenient : Bool} :
    ∀ {n : Nat} {ts : List Token} {e : Tree}, ProductPhrase lenient n ts e →
      ∀ {left groups : Nat} {rest : List Token}, left < n → StartsWith EndsOperand rest →
      NestsTooDeep (chain productOp? (operand lenient left groups) (ts ++ rest))
  | _, _, _, .single h, left, groups, rest, hn, hrest =>
      chain_nestsTooDeep (h.nestsTooDeep hn hrest)
  | _, _, _, @ProductPhrase.chain _ m n ts us sign op a b ha hop hb, left, groups, rest, hn,
      hrest => by
      have hsign : StartsWith EndsOperand (sign :: (us ++ rest)) := endsOperand_of_productOp? hop
      rw [List.append_assoc, List.cons_append]
      by_cases hm : m ≤ left
      · have hk : left < n := by omega
        exact (ha.reaches hm hsign).nestsTooDeep hop (hb.nestsTooDeep hk hrest)
      · exact ha.nestsTooDeep (Nat.not_le.mp hm) hsign

theorem OperandPhrase.nestsTooDeep {lenient : Bool} :
    ∀ {n : Nat} {ts : List Token} {e : Tree}, OperandPhrase lenient n ts e →
      ∀ {left groups : Nat} {rest : List Token}, left < n → StartsWith EndsOperand rest →
      NestsTooDeep (operand lenient left groups (ts ++ rest))
  | _, _, _, .minus _ _, 0, _, _, _, _ => operand_zero_nestsTooDeep (by simp)
  | _, _, _, .plus _ _, 0, _, _, _, _ => operand_zero_nestsTooDeep (by simp)
  | _, _, _, .power h, 0, _, _, _, _ => by
      obtain ⟨t, us, rfl, -⟩ := h.head
      exact operand_zero_nestsTooDeep (by simp)
  | _, _, _, .minus hsign ha, _ + 1, _, _, hn, hrest =>
      operand_minus_nestsTooDeep hsign (ha.nestsTooDeep (Nat.lt_of_succ_lt_succ hn) hrest)
  | _, _, _, .plus hsign ha, _ + 1, _, _, hn, hrest =>
      operand_plus_nestsTooDeep hsign (ha.nestsTooDeep (Nat.lt_of_succ_lt_succ hn) hrest)
  | _, _, _, .power h, _ + 1, _, _, hn, hrest =>
      operand_power_nestsTooDeep h (h.nestsTooDeep (Nat.lt_of_succ_lt_succ hn) hrest)

theorem PowerPhrase.nestsTooDeep {lenient : Bool} : ∀ {n : Nat} {ts : List Token} {e : Tree},
    PowerPhrase lenient n ts e → ∀ {left groups : Nat} {rest : List Token}, left < n →
      StartsWith EndsOperand rest →
      NestsTooDeep (power lenient (operand lenient left) groups (ts ++ rest))
  | _, _, _, .base h, left, groups, rest, hn, hrest => by
      have hbase : NestsTooDeep (primary lenient (operand lenient left) groups (_ ++ rest)) :=
        h.nestsTooDeep hn
      exact hbase.bind _
  | _, _, _, @PowerPhrase.raised _ m n ts us caret a b ha hcaret hb, left, groups, rest, hn,
      hrest => by
      rw [List.append_assoc, List.cons_append]
      by_cases hm : m ≤ left
      · have hk : left < n := by omega
        have hopen : StartsWith (fun kind => kind ≠ .lparen) (caret :: (us ++ rest)) := by
          simp [StartsWith, hcaret]
        have hbase : primary lenient (operand lenient left) groups (ts ++ caret :: (us ++ rest)) =
            .ok (a, caret :: (us ++ rest)) := ha.read hm hopen
        have hexponent : NestsTooDeep (operand lenient left groups (us ++ rest)) :=
          hb.nestsTooDeep hk hrest
        simpa [power, hbase, peek, hcaret] using hexponent.map _
      · have hbase : NestsTooDeep
            (primary lenient (operand lenient left) groups (ts ++ caret :: (us ++ rest))) :=
          ha.nestsTooDeep (Nat.not_le.mp hm)
        exact hbase.bind _

theorem PrimaryPhrase.nestsTooDeep {lenient : Bool} :
    ∀ {n : Nat} {ts : List Token} {e : Tree}, PrimaryPhrase lenient n ts e →
      ∀ {left groups : Nat} {rest : List Token}, left < n →
      NestsTooDeep (primary lenient (operand lenient left) groups (ts ++ rest))
  | _, _, _, .number _ _, _, _, _, hn => absurd hn (Nat.not_lt_zero _)
  | _, _, _, .constant _ _, _, _, _, hn => absurd hn (Nat.not_lt_zero _)
  | _, _, _, .free _ _ _, _, _, _, hn => absurd hn (Nat.not_lt_zero _)
  | _, _, e, @PrimaryPhrase.group _ _ ts _ closer _ hopener he hcloser, left, groups, rest,
      hn => by
      have hends : StartsWith EndsSum (closer :: rest) := endsSum_of_rparen hcloser
      have hinner : NestsTooDeep
          (sum (operand lenient left (groups + 1)) (ts ++ closer :: rest)) :=
        he.nestsTooDeep hn (hends.mono fun _ h => h.1)
      simpa [primary, peek, hopener] using hinner.bind _
  | _, _, _, @PrimaryPhrase.call _ _ ts name _ closer args hname hopener hargs hcloser
      hcallable, left, groups, rest, hn => by
      have harity : ∀ f, Function.ofName? name.text = some f → args.length ≤ f.arity := by
        intro f hf
        rw [Callable, hf] at hcallable
        exact Nat.le_of_eq hcallable
      have hends : StartsWith EndsSum (closer :: rest) := endsSum_of_rparen hcloser
      have hinner : NestsTooDeep (readArguments name.text (Function.ofName? name.text)
          (sum (operand lenient left (groups + 1))) (ts ++ closer :: rest)) :=
        hargs.nestsTooDeep hn hends harity
      simpa [primary, peek, hname, hopener] using callOf_nestsTooDeep hcallable hinner

theorem ArgumentsPhrase.nestsTooDeep {lenient : Bool} :
    ∀ {n : Nat} {ts : List Token} {args : List Tree}, ArgumentsPhrase lenient n ts args →
      ∀ {name : String} {function? : Option Function} {left groups : Nat} {rest : List Token},
      left < n → StartsWith EndsSum rest →
      (∀ f, function? = some f → args.length ≤ f.arity) →
      NestsTooDeep
        (readArguments name function? (sum (operand lenient left groups)) (ts ++ rest))
  | _, _, _, .single h, name, function?, left, groups, rest, hn, hrest, harity => by
      have hfirst : NestsTooDeep (sum (operand lenient left groups) (_ ++ rest)) :=
        h.nestsTooDeep hn (hrest.mono fun _ h => h.1)
      exact hfirst.bind _
  | _, _, _, @ArgumentsPhrase.more _ m n ts us comma args e hargs hcomma he, name, function?,
      left, groups, rest, hn, hrest, harity => by
      have hroom : ∀ f, function? = some f → args.length < f.arity := by
        intro f hf
        have := harity f hf
        rw [List.length_append] at this
        exact this
      have hends : StartsWith EndsSum (comma :: (us ++ rest)) := endsSum_of_comma hcomma
      have hfits : ∀ f, function? = some f → args.length ≤ f.arity :=
        fun f hf => Nat.le_of_lt (hroom f hf)
      rw [List.append_assoc, List.cons_append]
      by_cases hm : m ≤ left
      · have hk : left < n := by omega
        have hreach : ArgumentsReach name function? (sum (operand lenient left groups)) ts args
            (comma :: (us ++ rest)) := hargs.reaches hm hends hfits
        exact hreach.nestsTooDeep hcomma hroom (he.nestsTooDeep hk (hrest.mono fun _ h => h.1))
      · exact hargs.nestsTooDeep (Nat.not_le.mp hm) hends hfits

end

/-- The tokens of a phrase are read, or refused for the bound on nesting. -/
theorem ofTokens_of_sumPhrase {lenient : Bool} {n : Nat} {body : List Token} {mark : Token}
    {e : Tree} (h : SumPhrase lenient n body e) (hmark : mark.kind = .eof) :
    (n ≤ maxNesting → ofTokens lenient (body ++ [mark]) = .ok e) ∧
      (maxNesting < n → NestsTooDeep (ofTokens lenient (body ++ [mark]))) := by
  have hends : StartsWith EndsSum [mark] := endsSum_of_eof hmark
  constructor
  · intro hn
    have hread : sum (operand lenient maxNesting 0) (body ++ [mark]) = .ok (e, [mark]) :=
      h.read hn hends
    simp [ofTokens, hread, peek, hmark, pure, Except.pure]
  · intro hn
    have hrefused : NestsTooDeep (sum (operand lenient maxNesting 0) (body ++ [mark])) :=
      h.nestsTooDeep hn (hends.mono fun _ h => h.1)
    exact hrefused.bind _

end Fluxion.Source
