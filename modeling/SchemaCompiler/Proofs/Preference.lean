import SchemaCompiler.Proofs.Version
import SchemaCompiler.ShortName

/-! Which of the definitions of one name is preferred. The order of candidates is total, and level in it
are those that agree in version and group. -/

namespace SchemaCompiler

/-- What a definition is preferred for to another one of its name: a more stable version, then being in
the core group, then a group that comes first by name. -/
def QualifiedName.Outranks (q q' : QualifiedName) : Prop :=
  Version.order (q.version.getD "") (q'.version.getD "") = .gt ∨
    q.version.getD "" = q'.version.getD "" ∧ q'.group ≠ "core" ∧ (q.group = "core" ∨ q.group < q'.group)

namespace Candidate

variable {c d : Candidate}

/-- The version that counts; none stands below all others. -/
def version (c : Candidate) : String := c.name.version.getD ""

def isCore (c : Candidate) : Bool := c.name.group == "core"

theorem isCore_iff : c.isCore = true ↔ c.name.group = "core" := beq_iff_eq

theorem order_eq_compareLex : order = compareLex (fun a b => Version.order b.version a.version)
    (compareLex (fun a b => compareOn isCore b a) (compareOn fun c => c.name.group)) := rfl

instance : Std.TransCmp order := by
  have hversion : Std.TransCmp fun a b : Candidate => Version.order b.version a.version :=
    { eq_swap := Std.OrientedCmp.eq_swap
      isLE_trans := fun hab hbc => Std.TransCmp.isLE_trans hbc hab }
  have hcore : Std.TransCmp fun a b => compareOn isCore b a := Std.TransCmp.opposite
  rw [order_eq_compareLex]
  infer_instance

theorem order_lt_iff : c.order d = .lt ↔ c.name.Outranks d.name := by
  have hversion : Version.order d.version c.version = .lt ↔ Version.order c.version d.version = .gt :=
    Std.OrientedCmp.gt_iff_lt.symm
  have hlevel : Version.order d.version c.version = .eq ↔ c.version = d.version :=
    Std.LawfulEqCmp.compare_eq_iff_eq.trans eq_comm
  have hgroup : compare c.name.group d.name.group = .lt ↔ c.name.group < d.name.group :=
    compareOfLessAndEq_eq_lt
  have hcore : (compare d.isCore c.isCore).then (compare c.name.group d.name.group) = .lt ↔
      d.name.group ≠ "core" ∧ (c.name.group = "core" ∨ c.name.group < d.name.group) := by
    cases hd : d.isCore with
    | true =>
      have hd : d.name.group = "core" := isCore_iff.mp hd
      cases hc : c.isCore with
      | true => simp [isCore_iff.mp hc, hd]
      | false => simp [hd, show compare true false = .gt from rfl]
    | false =>
      have hd : d.name.group ≠ "core" := fun h => by simp [isCore_iff.mpr h] at hd
      cases hc : c.isCore with
      | true => simp [isCore_iff.mp hc, hd, show compare false true = .lt from rfl]
      | false =>
        have hc : c.name.group ≠ "core" := fun h => by simp [isCore_iff.mpr h] at hc
        simpa [hc, hd] using hgroup
  rw [order_eq_compareLex, compareLex, Ordering.then_eq_lt, hversion, hlevel]
  exact or_congr_right (and_congr_right fun _ => hcore)

theorem order_eq_iff : c.order d = .eq ↔ c.version = d.version ∧ c.name.group = d.name.group := by
  have hlevel : Version.order d.version c.version = .eq ↔ c.version = d.version :=
    Std.LawfulEqCmp.compare_eq_iff_eq.trans eq_comm
  have hgroup : compare c.name.group d.name.group = .eq ↔ c.name.group = d.name.group :=
    Std.LawfulEqCmp.compare_eq_iff_eq
  have hcore : c.name.group = d.name.group → compare d.isCore c.isCore = .eq := by
    intro hsame
    rw [isCore, isCore, hsame]
    exact Std.ReflCmp.compare_self
  rw [order_eq_compareLex, compareLex, Ordering.then_eq_eq, hlevel]
  refine and_congr_right fun _ => Ordering.then_eq_eq.trans ?_
  exact ⟨fun h => hgroup.mp h.2, fun h => ⟨hcore h, hgroup.mpr h⟩⟩

end Candidate

end SchemaCompiler
