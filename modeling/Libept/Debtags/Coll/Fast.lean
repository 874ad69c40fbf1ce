import Libept.Lib.MultiMap
import Libept.Utils.Basic
import Libept.Debtags.Coll.Operators

/-!
# The tag collection

`Fast` keeps a collection of tagged items in two maps, from items to their tags and from tags to
their items. The functions follow `coll/fast.cc`. Where the source dereferences the result of a
`find` without a check, the model gives nothing when the key is missing.
-/

namespace Libept

open MultiMap Operators

structure Fast where
  items : StrMap StrSet
  tags : StrMap StrSet
  deriving DecidableEq

namespace Fast

def empty : Fast := ⟨∅, ∅⟩

/-! ### Inserting -/

/-- The loop over the tags in `insert(item, tags)`. -/
def addItemToTag (item : Str) (tags : StrMap StrSet) (tag : Str) : StrMap StrSet :=
  upsert tags tag (orItem ∅ item) fun s => orAssignItem s item

/-- The loop over the items in `insert(items, tag)`. -/
def addTagToItem (tag : Str) (items : StrMap StrSet) (item : Str) : StrMap StrSet :=
  upsert items item (orItem ∅ tag) fun s => orAssignItem s tag

/-- `insert(item, tags)` -/
def insertItem (c : Fast) (item : Str) (tags : StrSet) : Fast :=
  if tags.isEmpty then c
  else
    { items := upsert c.items item tags fun s => orAssign s tags
      tags := tags.toList.foldl (addItemToTag item) c.tags }

/-- `insert(items, tag)` -/
def insertTag (c : Fast) (items : StrSet) (tag : Str) : Fast :=
  { items := items.toList.foldl (addTagToItem tag) c.items
    tags := upsert c.tags tag items fun s => orAssign s items }

/-- `insert(items, tags)` -/
def insert (c : Fast) (items tags : StrSet) : Fast :=
  if tags.isEmpty then c
  else items.toList.foldl (fun c i => c.insertItem i tags) c

def clear (_ : Fast) : Fast := empty

/-! ### Queries -/

def getTagsOfItem (c : Fast) (item : Str) : StrSet :=
  match c.items[item]? with
  | some tags => tags
  | none => ∅

def getItemsHavingTag (c : Fast) (tag : Str) : StrSet :=
  match c.tags[tag]? with
  | some items => items
  | none => ∅

/-- The items that have all of the given tags. -/
def getItemsHavingTags (c : Fast) (tags : StrSet) : StrSet :=
  match tags.toList with
  | [] => ∅
  | tag :: tags =>
    tags.foldl (fun res tag => andAssign res (c.getItemsHavingTag tag)) (c.getItemsHavingTag tag)

def hasItem (c : Fast) (item : Str) : Bool := c.items.contains item

def hasTag (c : Fast) (tag : Str) : Bool := c.tags.contains tag

def getTaggedItems (c : Fast) : StrSet := c.items.foldl (fun res i _ => orAssignItem res i) ∅

def getAllTags (c : Fast) : StrSet := c.tags.foldl (fun res i _ => orAssignItem res i) ∅

def getAllTagsAsVector (c : Fast) : List Str := c.tags.foldl (fun res i _ => res ++ [i]) []

/-- The tags whose items all have the given tag. -/
def getTagsImplying (c : Fast) (tag : Str) : StrSet :=
  let itemsToCheck := c.getItemsHavingTag tag
  let res := c.tags.foldl (fun res i _ =>
    if setContains itemsToCheck (c.getItemsHavingTag i) then orAssignItem res i else res) ∅
  subItem res tag

/-- One item met by the walk of `getItemsExactMatch`. The walk has moved on to the next item when
this one is erased. -/
def eraseUnlessExact (c : Fast) (tags res : StrSet) (item : Str) : StrSet :=
  match c.items[item]? with
  | some t => if t ≠ tags then res.erase item else res
  | none => res

/-- The items that have exactly the given tags. -/
def getItemsExactMatch (c : Fast) (tags : StrSet) : StrSet :=
  let res := c.getItemsHavingTags tags
  res.toList.foldl (c.eraseUnlessExact tags) res

/-- The size of the map, as an `unsigned int`. -/
def tagCount (c : Fast) : ℕ := c.tags.size % 2 ^ 32

/-! ### Removing -/

/-- The loop over the items in `removeTag`. -/
def dropTagOfItem (tag : Str) (items : StrMap StrSet) (item : Str) : Option (StrMap StrSet) := do
  let tags ← items[item]?
  let tags := subAssignItem tags tag
  if tags.isEmpty then some (items.erase item) else some (items.insert item tags)

def removeTag (c : Fast) (tag : Str) : Option Fast := do
  let itemset ← c.tags[tag]?
  let items ← itemset.toList.foldlM (dropTagOfItem tag) c.items
  some ⟨items, c.tags.erase tag⟩

/-- The loop over the items in `getChildCollection`. -/
def copyItem (c : Fast) (res : Fast) (item : Str) : Option Fast := do
  let tags ← c.items[item]?
  some (res.insertItem item tags)

def getChildCollection (c : Fast) (tag : Str) : Option Fast := do
  let itemset ← c.tags[tag]?
  let res ← itemset.toList.foldlM (copyItem c) empty
  res.removeTag tag

/-- One tag met by the walk of `removeTagsWithCardinalityLessThan`. The walk has moved on to the
next tag when this one is removed. -/
def removeIfLessThan (card : ℕ) (c : Fast) (tag : Str) : Option Fast := do
  let itemset ← c.tags[tag]?
  if itemset.size < card then c.removeTag tag else some c

def removeTagsWithCardinalityLessThan (c : Fast) (card : ℕ) : Option Fast :=
  c.tags.keys.foldlM (removeIfLessThan card) c

end Fast

end Libept
