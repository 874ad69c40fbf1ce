import Libept.Debtags.Coll.Fast.Relation

/-!
# Reachable collections

The collections that a program can build by calling the functions of `Fast`, in any order, and
what holds of every one of them. A call is allowed where the source can make it without looking up
a tag that is not there.
-/

namespace Libept.Fast

open Std MultiMap

/-- A call that changes a collection, or replaces it by one of its child collections. -/
inductive Call where
  | insertItem (item : Str) (tags : StrSet)
  | insertTag (items : StrSet) (tag : Str)
  | insert (items tags : StrSet)
  | clear
  | removeTag (tag : Str)
  | removeTagsWithCardinalityLessThan (card : ℕ)
  | getChildCollection (tag : Str)

namespace Call

def run (c : Fast) : Call → Option Fast
  | .insertItem item tags => some (c.insertItem item tags)
  | .insertTag items tag => some (c.insertTag items tag)
  | .insert items tags => some (c.insert items tags)
  | .clear => some c.clear
  | .removeTag tag => c.removeTag tag
  | .removeTagsWithCardinalityLessThan card => c.removeTagsWithCardinalityLessThan card
  | .getChildCollection tag => c.getChildCollection tag

/-- `removeTag` is called for a stored tag, `getChildCollection` for a tag that some item has. -/
def Allowed (c : Fast) : Call → Prop
  | .removeTag tag => c.hasTag tag = true
  | .getChildCollection tag => ∃ i, tag ∈ c.getTagsOfItem i
  | _ => True

end Call

inductive Reachable : Fast → Prop
  | empty : Reachable empty
  | call {c c' : Fast} (call : Call) (h : Reachable c) (hallowed : call.Allowed c)
      (hrun : call.run c = some c') : Reachable c'

variable {c : Fast} {R : Str → Str → Prop}

/-- An allowed call is carried out, and its result represents a relation again. -/
lemma represents_run (h : c.Represents R) (call : Call) (hallowed : call.Allowed c) :
    ∃ c' R', call.run c = some c' ∧ c'.Represents R' := by
  cases call with
  | insertItem item tags => exact ⟨_, _, rfl, represents_insertItem h item tags⟩
  | insertTag items tag => exact ⟨_, _, rfl, represents_insertTag h items tag⟩
  | insert items tags => exact ⟨_, _, rfl, represents_insert h items tags⟩
  | clear => exact ⟨_, _, rfl, represents_empty⟩
  | removeTag tag =>
    obtain ⟨c', hc', -, hrep⟩ := represents_removeTag h hallowed
    exact ⟨c', _, hc', hrep⟩
  | removeTagsWithCardinalityLessThan card =>
    obtain ⟨c', hc', hrep⟩ := represents_removeTagsWithCardinalityLessThan h card
    exact ⟨c', _, hc', hrep⟩
  | getChildCollection tag =>
    obtain ⟨i, hi⟩ := hallowed
    rw [h.mem_getTagsOfItem] at hi
    obtain ⟨c', hc', hrep⟩ := represents_getChildCollection h ⟨i, hi⟩
    exact ⟨c', _, hc', hrep⟩

lemma Reachable.represents (h : Reachable c) : ∃ R, c.Represents R := by
  induction h with
  | empty => exact ⟨_, represents_empty⟩
  | call call _ hallowed hrun ih =>
    obtain ⟨R, hR⟩ := ih
    obtain ⟨c'', R', hc'', hrep⟩ := represents_run hR call hallowed
    obtain rfl := Option.some.inj (hrun.symm.trans hc'')
    exact ⟨R', hrep⟩

/-- In every reachable collection the two maps are converse of each other, no item has an empty
tag set, and every allowed call finds all the entries it looks up. -/
theorem Reachable.converse (h : Reachable c) :
    (∀ i t, t ∈ c.getTagsOfItem i ↔ i ∈ c.getItemsHavingTag t) ∧
      (∀ (i : Str) (s : StrSet), c.items[i]? = some s → s.isEmpty = false) ∧
      ∀ call : Call, call.Allowed c → ∃ c', call.run c = some c' := by
  obtain ⟨R, hR⟩ := h.represents
  refine ⟨fun i t => ?_, fun i s hs => ?_, fun call hallowed => ?_⟩
  · rw [hR.mem_getTagsOfItem, hR.mem_getItemsHavingTag]
  · exact isEmpty_eq_false_iff.mpr (hR.items.nonempty hs)
  · obtain ⟨c', -, hc', -⟩ := represents_run hR call hallowed
    exact ⟨c', hc'⟩

/-- Two items with the tag `t`, one of them also with `u`. -/
def sample : Fast :=
  (empty.insert (ExtTreeSet.ofList [str "a", str "b"]) (ExtTreeSet.ofList [str "t"])).insertItem
    (str "a") (ExtTreeSet.ofList [str "u"])

lemma reachable_sample : Reachable sample :=
  .call (.insertItem _ _) (.call (.insert _ _) .empty trivial rfl) trivial rfl

theorem Reachable.converse_sample :
    str "t" ∈ sample.getTagsOfItem (str "b") ∧
      (∀ i t, t ∈ sample.getTagsOfItem i ↔ i ∈ sample.getItemsHavingTag t) ∧
      ∃ c', (Call.removeTag (str "t")).run sample = some c' :=
  have h := Reachable.converse reachable_sample
  ⟨by decide, h.1, h.2.2 (.removeTag (str "t")) (hasTag_iff.mpr (by decide))⟩

end Libept.Fast
