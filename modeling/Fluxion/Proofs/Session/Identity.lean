import Fluxion.Proofs.Source.Tokens
import Fluxion.Session.Basic

/-!
# What a fingerprint identifies

A fingerprint is a digest of the text of the expression, the variable and the tag of what
is asked for.  The separator between them is no character of a word, so the parts can be
read off the message from the left: the tree as `Expr.Plain.readsOff` says, then the
variable, and the tag is what is left.

Messages that are equal come from the same request, up to one exception.  A numeral that
overflows is read as infinity, and the text of infinity is a name that texts can use for a
variable.  Requests that differ only in this share their fingerprint.
-/

namespace Fluxion.Session

open Fluxion.Digest Fluxion.Expr Fluxion.Number Fluxion.Source Fluxion.Text

/-- The bytes whose digest is the fingerprint of a task. -/
def Task.message (task : Task) : List UInt8 :=
  requestBytes task.text task.x task.tag

theorem Task.fingerprint_eq_digest (task : Task) :
    task.fingerprint = Blake2b.hexText (Blake2b.digest fingerprintSize task.message) :=
  rfl

/-- Different messages are different as bytes. -/
theorem requestBytes_inj {text x tag text' x' tag' : String} :
    requestBytes text x tag = requestBytes text' x' tag' ↔
      requestMessage text x tag = requestMessage text' x' tag' := by
  constructor
  · intro h
    have hbytes : (String.ofList (requestMessage text x tag)).toByteArray =
        (String.ofList (requestMessage text' x' tag')).toByteArray :=
      ByteArray.ext (Array.toList_inj.mp h)
    exact String.ofList_injective (String.toByteArray_inj.mp hbytes)
  · intro h
    rw [requestBytes, requestBytes, h]

theorem closes_separator (rest : List Char) : Closes (separator :: rest) :=
  ⟨by decide, by decide⟩

theorem isName_of_checkVariable {x : String} (h : checkVariable x = .ok ()) :
    isName x = true := by
  unfold checkVariable at h
  split_ifs at h with hname
  exact hname

/-- What a message tells of the task: the tree up to the name of infinity, the variable
and the tag. -/
theorem Task.message_eq_iff {t t' : Task} (ht : t.expression.Plain) (ht' : t'.expression.Plain)
    (hx : isName t.x = true) (hx' : isName t'.x = true) :
    t.message = t'.message ↔
      nameInfinity t.expression = nameInfinity t'.expression ∧ t.x = t'.x ∧ t.tag = t'.tag := by
  rw [Task.message, Task.message, requestBytes_inj, requestMessage, requestMessage, Task.text,
    Task.text, render, render, String.toList_ofList, String.toList_ofList, List.append_assoc,
    List.append_assoc]
  constructor
  · intro h
    obtain ⟨htree, hbehind⟩ := ht.readsOff ht' (closes_separator _) (closes_separator _) h
    -- The variable is read off like a tree: it is the text of one.
    obtain ⟨hvar, htag⟩ := (Plain.var hx).readsOff (.var hx') (closes_separator _)
      (closes_separator _) (List.cons.inj hbehind).2
    exact ⟨htree, Expr.var.inj hvar, String.toList_inj.mp (List.cons.inj htag).2⟩
  · rintro ⟨htree, hvar, htag⟩
    rw [← ht.renderChars_nameInfinity, htree, ht'.renderChars_nameInfinity, hvar, htag]

/-- Tasks that are read from texts have one message exactly if they are the same up to the
name of infinity.  So a message identifies the task, if no numeral of the two texts
overflows, or if none of the two uses the name of infinity as a variable. -/
theorem message_identifies_task {source source' : String} {t t' : Task}
    (hparse : parse true source = .ok t.expression)
    (hparse' : parse true source' = .ok t'.expression)
    (hx : checkVariable t.x = .ok ()) (hx' : checkVariable t'.x = .ok ()) :
    (t.message = t'.message ↔
      nameInfinity t.expression = nameInfinity t'.expression ∧ t.x = t'.x ∧ t.tag = t'.tag) ∧
    (t.message = t'.message →
      (t.expression.hasInfinity = false ∧ t'.expression.hasInfinity = false) ∨
        (t.expression.dependsOn infinityName = false ∧
          t'.expression.dependsOn infinityName = false) →
      t.expression = t'.expression ∧ t.x = t'.x ∧ t.tag = t'.tag) := by
  have htree := plain_of_parse hparse
  have htree' := plain_of_parse hparse'
  have hiff := Task.message_eq_iff htree htree' (isName_of_checkVariable hx)
    (isName_of_checkVariable hx')
  refine ⟨hiff, fun hmessage hclear => ?_⟩
  obtain ⟨hnamed, hvar, htag⟩ := hiff.mp hmessage
  exact ⟨htree.eq_of_nameInfinity_eq htree' hnamed hclear, hvar, htag⟩

/-- The requests for the derivatives of `x*x` and of `x*inf` have different messages. -/
theorem message_identifies_task_product :
    let t : Task := ⟨.binary .mul (.var "x") (.var "x"), "x", some .forward⟩
    let t' : Task := ⟨.binary .mul (.var "x") (.var "inf"), "x", some .forward⟩
    parse true "x*x" = .ok t.expression ∧ parse true "x*inf" = .ok t'.expression ∧
      checkVariable t.x = .ok () ∧ checkVariable t'.x = .ok () ∧
      t.expression.hasInfinity = false ∧ t'.expression.hasInfinity = false ∧
      t.message ≠ t'.message := by
  intro t t'
  have hparse : parse true "x*x" = .ok t.expression := by with_unfolding_all rfl
  have hparse' : parse true "x*inf" = .ok t'.expression := by with_unfolding_all rfl
  have hx : checkVariable "x" = .ok () := rfl
  refine ⟨hparse, hparse', hx, hx, rfl, rfl, fun hmessage => ?_⟩
  have htree : t.expression = t'.expression :=
    ((message_identifies_task hparse hparse' hx hx).2 hmessage (Or.inl ⟨rfl, rfl⟩)).1
  simp [t, t'] at htree

/-- The texts `1e400` and `inf` are read as different trees, but the requests for them
have one message and so one fingerprint. -/
theorem not_message_identifies_task_overflow :
    let t : Task := ⟨.const infinity, "inf", some .forward⟩
    let t' : Task := ⟨.var "inf", "inf", some .forward⟩
    parse true "1e400" = .ok t.expression ∧ parse true "inf" = .ok t'.expression ∧
      checkVariable t.x = .ok () ∧ checkVariable t'.x = .ok () ∧
      t.message = t'.message ∧ t.fingerprint = t'.fingerprint ∧ t.expression ≠ t'.expression := by
  intro t t'
  have hx : checkVariable "inf" = .ok () := rfl
  have hname : isName "inf" = true := isName_of_checkVariable hx
  have hmessage : t.message = t'.message :=
    (Task.message_eq_iff (.const (Or.inl rfl)) (.var hname) hname hname).mpr
      ⟨nameInfinity_infinity, rfl, rfl⟩
  have hfingerprint : t.fingerprint = t'.fingerprint := by
    rw [Task.fingerprint_eq_digest, Task.fingerprint_eq_digest, hmessage]
  have hparse : parse true "1e400" = .ok t.expression := by with_unfolding_all rfl
  have hparse' : parse true "inf" = .ok t'.expression := by with_unfolding_all rfl
  exact ⟨hparse, hparse', hx, hx, hmessage, hfingerprint, by simp [t, t']⟩

end Fluxion.Session
