import Libept.Debtags.Coll.Fast.Relation

/-!
# Sequences of insertions

A collection built only by `insert(item, tags)` and `insert(items, tags)` is determined by the set
of pairs it was given: the two maps are the images of the union of the products of the arguments.
The order of the calls, their grouping and repetitions make no difference.
-/

namespace Libept.Fast

open Std MultiMap

inductive InsertCall where
  | insertItem (item : Str) (tags : StrSet)
  | insert (items tags : StrSet)

namespace InsertCall

def run (c : Fast) : InsertCall → Fast
  | .insertItem item tags => c.insertItem item tags
  | .insert items tags => c.insert items tags

/-- The pairs the call is given: `{item} × tags` or `items × tags`. -/
def Product : InsertCall → Str → Str → Prop
  | .insertItem item tags, i, t => i = item ∧ t ∈ tags
  | .insert items tags, i, t => i ∈ items ∧ t ∈ tags

end InsertCall

/-- Carry out the calls on an empty collection. -/
def insertAll (calls : List InsertCall) : Fast := calls.foldl InsertCall.run empty

/-- The union of the products of the calls. -/
def Products (calls : List InsertCall) (i t : Str) : Prop := ∃ call ∈ calls, call.Product i t

variable {c : Fast} {R : Str → Str → Prop}

lemma holds_run (h : c.Holds R) (call : InsertCall) :
    (call.run c).Holds fun i t => R i t ∨ call.Product i t := by
  cases call with
  | insertItem item tags => exact holds_insertItem h item tags
  | insert items tags => exact holds_insert h items tags

lemma holds_foldl_run (h : c.Holds R) (calls : List InsertCall) :
    (calls.foldl InsertCall.run c).Holds fun i t => R i t ∨ Products calls i t := by
  induction calls generalizing c R with
  | nil => exact h.congr fun i t => by simp [Products]
  | cons call calls ih =>
    apply (ih (holds_run h call)).congr
    intro i t
    simp [Products, or_assoc]

lemma holds_insertAll (calls : List InsertCall) : (insertAll calls).Holds (Products calls) :=
  (holds_foldl_run holds_empty calls).congr fun i t => by simp

/-- The maps after any insertions are the by-item and the by-tag images of all the pairs, with no
other keys; so insertions of the same pairs give equal collections. -/
theorem insertAll_images :
    (∀ calls, IsImage (insertAll calls).items (Products calls) ∧
      IsImage (insertAll calls).tags fun t i => Products calls i t) ∧
      ∀ calls calls', (∀ i t, Products calls i t ↔ Products calls' i t) →
        insertAll calls = insertAll calls' := by
  constructor
  · intro calls
    exact ⟨(holds_insertAll calls).items, (holds_insertAll calls).tags⟩
  · intro calls calls' hP
    exact ((holds_insertAll calls).congr hP).unique (holds_insertAll calls')

theorem insertAll_images_regrouped :
    insertAll [.insertItem (str "a") (ExtTreeSet.ofList [str "t"])] =
      insertAll [.insert (ExtTreeSet.ofList [str "a"]) (ExtTreeSet.ofList [str "t"]),
        .insertItem (str "a") ∅] :=
  insertAll_images.2 _ _ fun i t => by
    simp [Products, InsertCall.Product, eq_comm (a := i)]

end Libept.Fast
