import Libept.Debtags.Vocabulary.Facts
import Libept.Debtags.Vocabulary.Write

/-!
# Writing a vocabulary and reading it back

The text of a vocabulary gives its facts back, but for what a value that ends with a newline cuts
off, and for facets whose names, taken from tag names, do not survive.
-/

namespace Libept.Vocabulary

open Std Voc DebDBParser

variable {v : Vocabulary} {a : Fact} {f t k x : Str} {input : Str}

/-! ### What has been read -/

lemma isPrefix_of_go {s p : Str} (h : getfacet.go s = some p) : p <+: s := by
  induction s generalizing p with
  | nil => cases h
  | cons c s ih =>
    rw [getfacet.go] at h
    split_ifs at h
    · obtain rfl := Option.some.inj h
      exact List.nil_prefix
    · obtain ⟨q, hq, rfl⟩ := Option.map_eq_some_iff.mp h
      exact List.cons_prefix_cons.mpr ⟨rfl, ih hq⟩

lemma isBeginning_getfacet (ht : IsValue t) : IsBeginning (getfacet t) := by
  change IsBeginning ((getfacet.go t).getD (str "legacy"))
  cases hgo : getfacet.go t with
  | none =>
    have hlegacy : IsValue (str "legacy") := .first (by decide) (by decide)
    exact isBeginning_of_isValue hlegacy
  | some p => exact ⟨t, ht, isPrefix_of_go hgo⟩

/-- What holds of a vocabulary that has been read from a file. -/
structure Parsed (v : Vocabulary) : Prop where
  facet (f : Str) (h : v.Has (.facet f)) : IsBeginning f
  facetField (f k x : Str) (h : v.Has (.facetField f k x)) : IsValue f ∧ IsField k x
  tag (t : Str) (h : v.Has (.tag t)) : IsValue t
  tagField (t k x : Str) (h : v.Has (.tagField t k x)) : IsField k x

lemma exists_records (h : (empty.read input).Returns (.ok (), v)) :
    ∃ records, (∀ record ∈ records, AreFields record) ∧ v = empty.mergeAll records := by
  have hfeed := (read_denotes empty input _).mp h
  have hend := feed_returns hfeed
  rw [hend, feed_mergeRecord wf_empty] at hfeed
  exact ⟨_, areFields_reading input, (congrArg Prod.snd (Option.some.inj hfeed)).symm⟩

lemma parsed_of_read (h : (empty.read input).Returns (.ok (), v)) : v.Parsed := by
  obtain ⟨records, hfields, rfl⟩ := exists_records h
  have hstated : ∀ a, (empty.mergeAll records).Has a →
      ∃ record, AreFields record ∧ States record a := by
    intro a ha
    obtain ⟨record, hrecord, hstates⟩ :=
      (has_of_has_mergeAll wf_empty ha).resolve_left (not_has_empty a)
    exact ⟨record, hfields record hrecord, hstates⟩
  refine ⟨fun f hf => ?_, fun f k x hx => ?_, fun t ht => ?_, fun t k x hx => ?_⟩
  · obtain ⟨record, hrecord, hstates⟩ := hstated _ hf
    cases hstates with
    | facet hf => exact isBeginning_of_isValue (hrecord _ _ hf).value
    | facetOfTag _ ht => exact isBeginning_getfacet (hrecord _ _ ht).value
  · obtain ⟨record, hrecord, hstates⟩ := hstated _ hx
    cases hstates with
    | facetField hf _ hx => exact ⟨(hrecord _ _ hf).value, hrecord _ _ hx⟩
  · obtain ⟨record, hrecord, hstates⟩ := hstated _ ht
    cases hstates with
    | tag _ ht => exact (hrecord _ _ ht).value
  · obtain ⟨record, hrecord, hstates⟩ := hstated _ hx
    cases hstates with
    | tagField _ _ _ hx => exact hrecord _ _ hx

/-! ### What is written -/

/-- The fields that `writeRecord` writes. -/
def group (key name : Str) (d : Data) : List (Str × Str) := (key, name) :: d.fields.toList

def groups (v : Vocabulary) : List (List (Str × Str)) :=
  v.m_facets.toList.flatMap fun (name, f) =>
    group (str "Facet") name f.toData ::
      f.m_tags.toList.map fun (name, t) => group (str "Tag") name t

lemma writeRecord_eq (key name : Str) (d : Data) :
    writeRecord key name d = writeGroup (group key name d) := by
  simp [writeRecord, writeGroup, group]

lemma write_eq (v : Vocabulary) : v.write = v.groups.flatMap writeGroup := by
  simp [write, groups, writeRecord_eq, List.flatMap_assoc, List.flatMap_map]

/-- There is a group for every facet and for every tag. -/
lemma Wf.mem_groups (h : v.Wf) {g : List (Str × Str)} : g ∈ v.groups ↔
    (∃ (f : Str) (d : FacetData), v.m_facets[f]? = some d ∧
      g = group (str "Facet") f d.toData) ∨
      ∃ t td, v.tagData t = some td ∧ g = group (str "Tag") t td := by
  simp only [groups, List.mem_flatMap, List.mem_cons, List.mem_map, Prod.exists,
    ExtTreeMap.mem_toList_iff_getElem?_eq_some, tagData_eq_some_iff]
  constructor
  · rintro ⟨f, d, hd, rfl | ⟨t, td, htd, rfl⟩⟩
    · exact .inl ⟨f, d, hd, rfl⟩
    · obtain rfl := (h f d hd).facet_of_tag t td htd
      exact .inr ⟨t, td, ⟨d, hd, htd⟩, rfl⟩
  · rintro (⟨f, d, hd, rfl⟩ | ⟨t, td, ⟨d, hd, htd⟩, rfl⟩)
    · exact ⟨f, d, hd, .inl rfl⟩
    · exact ⟨_, d, hd, .inr ⟨t, td, htd, rfl⟩⟩

lemma mem_group {key name : Str} {d : Data} :
    (k, x) ∈ group key name d ↔ (k = key ∧ x = name) ∨ d.fields[k]? = some x := by
  simp only [group, List.mem_cons, Prod.mk.injEq, ExtTreeMap.mem_toList_iff_getElem?_eq_some]

lemma has_facet {d : FacetData} (hd : v.m_facets[f]? = some d) : v.Has (.facet f) := by
  simp [Has, ExtTreeMap.mem_iff_isSome_getElem?, hd]

lemma has_facetField {d : FacetData} (hd : v.m_facets[f]? = some d) :
    v.Has (.facetField f k x) ↔ d.fields[k]? = some x := by
  simp [Has, facetField, hd]

lemma has_tag {td : TagData} (htd : v.tagData t = some td) : v.Has (.tag t) := by
  simp [Has, htd]

lemma has_tagField {td : TagData} (htd : v.tagData t = some td) :
    v.Has (.tagField t k x) ↔ td.fields[k]? = some x := by
  simp [Has, tagField, htd]

lemma Has.facet_of_facetField (h : v.Has (.facetField f k x)) : v.Has (.facet f) := by
  obtain ⟨d, hd, -⟩ := Option.bind_eq_some_iff.mp h
  exact has_facet hd

lemma Has.tag_of_tagField (h : v.Has (.tagField t k x)) : v.Has (.tag t) := by
  obtain ⟨td, htd, -⟩ := Option.bind_eq_some_iff.mp h
  exact has_tag htd

lemma Wf.facet_group (h : v.Wf) (hf : v.Has (.facet f)) :
    ∃ d, v.m_facets[f]? = some d ∧ group (str "Facet") f d.toData ∈ v.groups := by
  obtain ⟨d, hd⟩ := Option.isSome_iff_exists.mp (ExtTreeMap.mem_iff_isSome_getElem?.mp hf)
  exact ⟨d, hd, h.mem_groups.mpr (.inl ⟨f, d, hd, rfl⟩)⟩

lemma Wf.tag_group (h : v.Wf) (ht : v.Has (.tag t)) :
    ∃ td, v.tagData t = some td ∧ group (str "Tag") t td ∈ v.groups := by
  obtain ⟨td, htd⟩ := Option.isSome_iff_exists.mp ht
  exact ⟨td, htd, h.mem_groups.mpr (.inr ⟨t, td, htd, rfl⟩)⟩

lemma isNameChar_facet : (str "Facet").all isNameChar = true := by decide

lemma isNameChar_tag : (str "Tag").all isNameChar = true := by decide

lemma Parsed.writable (hp : v.Parsed) (h : v.Wf) : ∀ g ∈ v.groups, Writable g := by
  intro g hg
  rcases h.mem_groups.mp hg with ⟨f, d, hd, rfl⟩ | ⟨t, td, htd, rfl⟩
  · rintro ⟨k, x⟩ hkx
    rcases mem_group.mp hkx with ⟨rfl, rfl⟩ | hx
    · exact ⟨isNameChar_facet, hp.facet _ (has_facet hd)⟩
    · have hfield := (hp.facetField f k x ((has_facetField hd).mpr hx)).2
      exact ⟨hfield.name, isBeginning_of_isValue hfield.value⟩
  · rintro ⟨k, x⟩ hkx
    rcases mem_group.mp hkx with ⟨rfl, rfl⟩ | hx
    · exact ⟨isNameChar_tag, isBeginning_of_isValue (hp.tag _ (has_tag htd))⟩
    · have hfield := hp.tagField t k x ((has_tagField htd).mpr hx)
      exact ⟨hfield.name, isBeginning_of_isValue hfield.value⟩

lemma Wf.group_ne_nil (h : v.Wf) : ∀ g ∈ v.groups, g ≠ [] := by
  intro g hg
  rcases h.mem_groups.mp hg with ⟨f, d, -, rfl⟩ | ⟨t, td, -, rfl⟩ <;> exact List.cons_ne_nil _ _

/-- The records that are read of what has been written. -/
def written (v : Vocabulary) : List Record := v.groups.flatMap (cut .between)

lemma read_write (h : v.Wf) (hp : v.Parsed) (x : Except Failure Unit × Vocabulary) :
    (empty.read v.write).Returns x ↔ x = (.ok (), empty.mergeAll v.written) := by
  rw [read_denotes, write_eq, reading_writeGroups _ (hp.writable h) h.group_ne_nil]
  simp only [feed_mergeRecord wf_empty, written, Option.some.injEq, eq_comm]

/-- So the content survives if it is the same in what is read back. -/
lemma exists_same_iff (h : v.Wf) (hp : v.Parsed) :
    (∃ v', (empty.read v.write).Returns (.ok (), v') ∧ v.Same v') ↔
      ∀ a, v.Has a ↔ (empty.mergeAll v.written).Has a := by
  simp only [read_write h hp, Prod.mk.injEq, true_and, exists_eq_left]
  exact ⟨Same.has_iff, same_of_has_iff h (wf_empty.mergeAll _)⟩

/-! ### The condition -/

/-- When a vocabulary survives. A facet may have been created for a tag, so that its name is any
beginning of a value. -/
structure Rereadable (v : Vocabulary) : Prop where
  values (a : Fact) (h : v.Has a) : ∀ x ∈ a.value, x.getLast? ≠ some nl
  plain (f k x : Str) (h : v.Has (.facetField f k x)) : reread f = f
  kept (f : Str) (h : v.Has (.facet f)) : v.Has (.facet (reread f))
  regained (f : Str) (h : v.Has (.facet f)) :
    (∃ t, v.Has (.tag t) ∧ getfacet t = f) ∨ ∃ g, v.Has (.facet g) ∧ reread g = f

/-! ### What a record that is read back can state -/

lemma Wf.no_facet_field (h : v.Wf) {d : FacetData} (hd : v.m_facets[f]? = some d) :
    d.fields[str "Facet"]? = none := (h f d hd).no_facet

lemma Wf.no_name_field (h : v.Wf) {td : TagData} (htd : v.tagData t = some td) :
    td.fields[str "Tag"]? = none ∧ td.fields[str "Facet"]? = none := by
  obtain ⟨d, hd, htd⟩ := tagData_eq_some_iff.mp htd
  have htag := (h _ d hd).isTag t td htd
  exact ⟨htag.no_tag, htag.no_facet⟩

/-- What stands in a group under another name than `Facet` is a value of the vocabulary. -/
lemma has_of_mem_group (h : v.Wf) {g : List (Str × Str)} (hg : g ∈ v.groups) (hk : k ≠ str "Facet")
    (hx : (k, x) ∈ g) : ∃ a, v.Has a ∧ a.value = some x := by
  rcases h.mem_groups.mp hg with ⟨f, d, hd, rfl⟩ | ⟨t, td, htd, rfl⟩
  · rcases mem_group.mp hx with ⟨rfl, -⟩ | hx
    · exact absurd rfl hk
    · exact ⟨_, (has_facetField hd).mpr hx, rfl⟩
  · rcases mem_group.mp hx with ⟨-, rfl⟩ | hx
    · exact ⟨_, has_tag htd, rfl⟩
    · exact ⟨_, (has_tagField htd).mpr hx, rfl⟩

/-- A field of a record that is read back has been written. -/
lemma exists_of_mem_written {record : Record} (hrecord : record ∈ v.written)
    (hx : record[k]? = some x) : ∃ g ∈ v.groups, record ∈ cut .between g ∧
      ∃ y, (k, y) ∈ g ∧ x = reread y := by
  obtain ⟨g, hg, hcut⟩ := List.mem_flatMap.mp hrecord
  have hy := (field_of_mem_cut hcut hx).resolve_left (by simp [Position.record])
  exact ⟨g, hg, hcut, hy⟩

/-- The values that are read back are those of the vocabulary, as they are read back. -/
lemma value_of_states (h : v.Wf) {record : Record} (hrecord : record ∈ v.written)
    (ha : States record a) (hx : x ∈ a.value) :
    ∃ b y, v.Has b ∧ b.value = some y ∧ x = reread y := by
  obtain ⟨k, hk, hkx⟩ : ∃ k, k ≠ str "Facet" ∧ record[k]? = some x := by
    cases ha with
    | facet _ => cases hx
    | facetField _ hk hkx =>
      obtain rfl := Option.some.inj hx
      exact ⟨_, hk, hkx⟩
    | facetOfTag _ _ => cases hx
    | tag _ ht =>
      obtain rfl := Option.some.inj hx
      exact ⟨_, by decide, ht⟩
    | tagField hf _ _ hkx =>
      obtain rfl := Option.some.inj hx
      refine ⟨_, ?_, hkx⟩
      rintro rfl
      rw [hf] at hkx
      cases hkx
  obtain ⟨g, hg, -, y, hy, rfl⟩ := exists_of_mem_written hrecord hkx
  obtain ⟨b, hb, hby⟩ := has_of_mem_group h hg hk hy
  exact ⟨b, y, hb, hby, rfl⟩

/-- A field of a facet that is read back was one of a facet whose name did not cut it off. -/
lemma facet_of_states (h : v.Wf) {record : Record} (hrecord : record ∈ v.written)
    (ha : States record (.facetField f k x)) :
    ∃ g y, v.Has (.facetField g k y) ∧ g.getLast? ≠ some nl ∧ f = reread g := by
  cases ha with
  | facetField hf hk hx =>
    obtain ⟨g, hg, hcut, name, hname, rfl⟩ := exists_of_mem_written hrecord hf
    rcases h.mem_groups.mp hg with ⟨f, d, hd, rfl⟩ | ⟨t, td, htd, rfl⟩
    · have hfacet := h.no_facet_field hd
      obtain rfl : name = f := by
        rcases mem_group.mp hname with ⟨-, rfl⟩ | hfield
        · rfl
        · simp [hfacet] at hfield
      obtain ⟨y, hy, -⟩ := (field_of_mem_cut hcut hx).resolve_left (by simp [Position.record])
      have hfield := (mem_group.mp hy).resolve_left fun h => hk h.1
      refine ⟨name, y, (has_facetField hd).mpr hfield, fun hnl => ?_, rfl⟩
      -- the name alone makes a record, and the fields behind it have no facet
      rw [group, cut, if_pos hnl] at hcut
      rcases List.mem_append.mp hcut with hcut | hcut
      · obtain rfl := List.mem_singleton.mp hcut
        rcases getElem?_insertIfNew_cases hx with hx | ⟨rfl, -⟩
        · simp [Position.record] at hx
        · exact hk rfl
      · obtain ⟨z, hz, -⟩ := (field_of_mem_cut hcut hf).resolve_left (by simp [Position.record])
        simp [ExtTreeMap.mem_toList_iff_getElem?_eq_some, hfacet] at hz
    · rcases mem_group.mp hname with ⟨hkey, -⟩ | hfield
      · exact absurd hkey (by decide)
      · simp [(h.no_name_field htd).2] at hfield

/-! ### The records that survive -/

lemma getLast?_of_reread (h : reread f = f) : f.getLast? ≠ some nl := by
  intro hlast
  rw [reread, if_pos hlast] at h
  have hlen := congrArg List.length h
  rw [List.length_dropLast] at hlen
  have hpos := List.length_pos_of_mem (List.mem_of_getLast? hlast)
  omega

/-- No group is cut. -/
lemma written_eq (h : v.Wf) (hvalues : ∀ a, v.Has a → ∀ x ∈ a.value, x.getLast? ≠ some nl)
    (hplain : ∀ f k x, v.Has (.facetField f k x) → reread f = f) :
    v.written = v.groups.map recordOf := by
  rw [written, List.map_eq_flatMap]
  apply List.flatMap_congr
  intro g hg
  rcases h.mem_groups.mp hg with ⟨f, d, hd, rfl⟩ | ⟨t, td, htd, rfl⟩
  · apply cut_eq_singleton (by simp [group])
    intro a ha
    rw [group] at ha
    rcases hdata : d.fields.toList with _ | ⟨⟨k, x⟩, data⟩
    · simp [hdata] at ha
    have hfield : v.Has (.facetField f k x) := by
      rw [has_facetField hd, ← ExtTreeMap.mem_toList_iff_getElem?_eq_some, hdata]
      exact List.mem_cons_self
    rcases List.mem_cons.mp (List.mem_of_mem_dropLast ha) with rfl | ha
    · exact getLast?_of_reread (hplain f k x hfield)
    · rw [ExtTreeMap.mem_toList_iff_getElem?_eq_some, ← has_facetField hd] at ha
      exact hvalues _ ha _ rfl
  · apply cut_eq_singleton (by simp [group])
    intro a ha
    rcases mem_group.mp (List.mem_of_mem_dropLast ha) with ⟨-, hname⟩ | hfield
    · exact hname ▸ hvalues _ (has_tag htd) _ rfl
    · exact hvalues _ ((has_tagField htd).mpr hfield) _ rfl

lemma pairwise_group {key name : Str} {d : Data} (hkey : d.fields[key]? = none) :
    (group key name d).Pairwise fun a b => a.1 ≠ b.1 := by
  refine List.pairwise_cons.mpr ⟨?_, ?_⟩
  · rintro ⟨k, x⟩ hkx rfl
    simp [ExtTreeMap.mem_toList_iff_getElem?_eq_some, hkey] at hkx
  · exact ExtTreeMap.distinct_keys_toList.imp fun hab h => hab (LawfulEqCmp.compare_eq_iff_eq.mpr h)

lemma getElem?_recordOf_group {key name : Str} {d : Data} (hkey : d.fields[key]? = none) :
    (recordOf (group key name d))[k]? = some x ↔
      (k = key ∧ x = reread name) ∨ ∃ y, d.fields[k]? = some y ∧ x = reread y := by
  simp only [getElem?_recordOf (pairwise_group hkey), mem_group]
  constructor
  · rintro ⟨y, ⟨rfl, rfl⟩ | hy, rfl⟩
    · exact .inl ⟨rfl, rfl⟩
    · exact .inr ⟨y, hy, rfl⟩
  · rintro (⟨rfl, rfl⟩ | ⟨y, hy, rfl⟩)
    · exact ⟨name, .inl ⟨rfl, rfl⟩, rfl⟩
    · exact ⟨y, .inr hy, rfl⟩

/-- The record of a facet. -/
lemma states_facet_group (h : v.Wf) {d : FacetData} (hd : v.m_facets[f]? = some d) :
    States (recordOf (group (str "Facet") f d.toData)) a ↔
      a = .facet (reread f) ∨ ∃ k y, v.Has (.facetField f k y) ∧
        a = .facetField (reread f) k (reread y) := by
  have hfacet := h.no_facet_field hd
  have hlookup := fun k x => @getElem?_recordOf_group k x _ f _ hfacet
  rw [states_facet_iff ((hlookup _ _).mpr (.inl ⟨rfl, rfl⟩))]
  refine or_congr_right ⟨?_, ?_⟩
  · rintro ⟨k, x, hk, hx, rfl⟩
    obtain ⟨y, hy, rfl⟩ := ((hlookup k x).mp hx).resolve_left fun h => hk h.1
    exact ⟨k, y, (has_facetField hd).mpr hy, rfl⟩
  · rintro ⟨k, y, hy, rfl⟩
    rw [has_facetField hd] at hy
    refine ⟨k, reread y, ?_, (hlookup _ _).mpr (.inr ⟨y, hy, rfl⟩), rfl⟩
    rintro rfl
    rw [hfacet] at hy
    cases hy

/-- The record of a tag. -/
lemma states_tag_group (h : v.Wf) {td : TagData} (htd : v.tagData t = some td) :
    States (recordOf (group (str "Tag") t td)) a ↔
      a = .facet (getfacet (reread t)) ∨ a = .tag (reread t) ∨
        ∃ k y, v.Has (.tagField t k y) ∧ a = .tagField (reread t) k (reread y) := by
  obtain ⟨htag, hfacet⟩ := h.no_name_field htd
  have hlookup := fun k x => @getElem?_recordOf_group k x _ t _ htag
  have hnone : (recordOf (group (str "Tag") t td))[str "Facet"]? = none := by
    apply Option.eq_none_iff_forall_ne_some.mpr
    intro x hx
    rcases (hlookup _ _).mp hx with ⟨hkey, -⟩ | ⟨y, hy, -⟩
    · exact absurd hkey (by decide)
    · simp [hfacet] at hy
  rw [states_tag_iff hnone ((hlookup _ _).mpr (.inl ⟨rfl, rfl⟩))]
  refine or_congr_right (or_congr_right ⟨?_, ?_⟩)
  · rintro ⟨k, x, hk, hx, rfl⟩
    obtain ⟨y, hy, rfl⟩ := ((hlookup k x).mp hx).resolve_left fun h => hk h.1
    exact ⟨k, y, (has_tagField htd).mpr hy, rfl⟩
  · rintro ⟨k, y, hy, rfl⟩
    rw [has_tagField htd] at hy
    refine ⟨k, reread y, ?_, (hlookup _ _).mpr (.inr ⟨y, hy, rfl⟩), rfl⟩
    rintro rfl
    rw [htag] at hy
    cases hy

lemma Parsed.isValue (hp : v.Parsed) (ha : v.Has a) (hx : x ∈ a.value) : IsValue x := by
  cases a with
  | facet f => cases hx
  | facetField f k y => exact Option.some.inj hx ▸ (hp.facetField f k y ha).2.value
  | tag t => exact Option.some.inj hx ▸ hp.tag t ha
  | tagField t k y => exact Option.some.inj hx ▸ (hp.tagField t k y ha).value

/-- What is to be read back about a fact: a facet is made by a record for it or for a tag. -/
def Rewritten (v : Vocabulary) : Fact → Prop
  | .facet f => (∃ t, v.Has (.tag t) ∧ getfacet t = f) ∨ ∃ g, v.Has (.facet g) ∧ reread g = f
  | a => v.Has a

section Uncut

variable (h : v.Wf) (hp : v.Parsed)
  (hvalues : ∀ a, v.Has a → ∀ x ∈ a.value, x.getLast? ≠ some nl)
  (hplain : ∀ f k x, v.Has (.facetField f k x) → reread f = f)

include hp hvalues in
lemma reread_value {b : Fact} (hb : v.Has b) (hx : x ∈ b.value) : reread x = x :=
  reread_of_isValue (hp.isValue hb hx) (hvalues b hb x hx)

include h hp hvalues hplain

lemma rewritten_of_states (ha : ∃ record ∈ v.written, States record a) : v.Rewritten a := by
  have hread := fun {b : Fact} {x : Str} => @reread_value v x hp hvalues b
  obtain ⟨record, hrecord, ha⟩ := ha
  rw [written_eq h hvalues hplain] at hrecord
  obtain ⟨g, hg, rfl⟩ := List.mem_map.mp hrecord
  rcases h.mem_groups.mp hg with ⟨f, d, hd, rfl⟩ | ⟨t, td, htd, rfl⟩
  · rcases (states_facet_group h hd).mp ha with rfl | ⟨k, y, hy, rfl⟩
    · exact .inr ⟨f, has_facet hd, rfl⟩
    · rw [hplain f k y hy, hread hy rfl]
      exact hy
  · have ht := has_tag htd
    rcases (states_tag_group h htd).mp ha with rfl | rfl | ⟨k, y, hy, rfl⟩
    · rw [hread ht rfl]
      exact .inl ⟨t, ht, rfl⟩
    · rw [hread ht rfl]
      exact ht
    · rw [hread ht rfl, hread hy rfl]
      exact hy

lemma exists_states_of_rewritten (ha : v.Rewritten a) :
    ∃ record ∈ v.written, States record a := by
  have hread := fun {b : Fact} {x : Str} => @reread_value v x hp hvalues b
  rw [written_eq h hvalues hplain]
  simp only [List.mem_map, exists_exists_and_eq_and]
  cases a with
  | facet f =>
    rcases ha with ⟨t, ht, rfl⟩ | ⟨g, hg, rfl⟩
    · obtain ⟨td, htd, hmem⟩ := h.tag_group ht
      exact ⟨_, hmem, (states_tag_group h htd).mpr (.inl (by rw [hread ht rfl]))⟩
    · obtain ⟨d, hd, hmem⟩ := h.facet_group hg
      exact ⟨_, hmem, (states_facet_group h hd).mpr (.inl rfl)⟩
  | facetField f k x =>
    have ha : v.Has (.facetField f k x) := ha
    obtain ⟨d, hd, hmem⟩ := h.facet_group ha.facet_of_facetField
    refine ⟨_, hmem, (states_facet_group h hd).mpr (.inr ⟨k, x, ha, ?_⟩)⟩
    rw [hplain f k x ha, hread ha rfl]
  | tag t =>
    have ha : v.Has (.tag t) := ha
    obtain ⟨td, htd, hmem⟩ := h.tag_group ha
    exact ⟨_, hmem, (states_tag_group h htd).mpr (.inr (.inl (by rw [hread ha rfl])))⟩
  | tagField t k x =>
    have ha : v.Has (.tagField t k x) := ha
    have ht := ha.tag_of_tagField
    obtain ⟨td, htd, hmem⟩ := h.tag_group ht
    refine ⟨_, hmem, (states_tag_group h htd).mpr (.inr (.inr ⟨k, x, ha, ?_⟩))⟩
    rw [hread ht rfl, hread ha rfl]

/-- What the records that are read back state, when no group is cut. -/
lemma states_written_iff : (∃ record ∈ v.written, States record a) ↔ v.Rewritten a :=
  ⟨rewritten_of_states h hp hvalues hplain, exists_states_of_rewritten h hp hvalues hplain⟩

end Uncut

/-! ### Writing and reading back -/

/-- The values of a vocabulary are finitely many, so that they have a greatest length. -/
lemma exists_bound (h : v.Wf) : ∃ n, ∀ a, v.Has a → ∀ x ∈ a.value, x.length ≤ n := by
  have key : ∀ g ∈ v.groups, ∀ k x, (k, x) ∈ g →
      x.length ≤ (v.groups.flatten.map fun a => a.2.length).sum := by
    intro g hg k x hx
    refine List.le_sum_of_mem (List.mem_map.mpr ⟨(k, x), ?_, rfl⟩)
    exact List.mem_flatten.mpr ⟨g, hg, hx⟩
  refine ⟨(v.groups.flatten.map fun a => a.2.length).sum, fun a ha x hx => ?_⟩
  cases a with
  | facet f => cases hx
  | facetField f k y =>
    obtain rfl := Option.some.inj hx
    obtain ⟨d, hd, hmem⟩ := h.facet_group ha.facet_of_facetField
    exact key _ hmem _ _ (mem_group.mpr (.inr ((has_facetField hd).mp ha)))
  | tag t =>
    obtain rfl := Option.some.inj hx
    obtain ⟨td, htd, hmem⟩ := h.tag_group ha
    exact key _ hmem _ _ (mem_group.mpr (.inl ⟨rfl, rfl⟩))
  | tagField t k y =>
    obtain rfl := Option.some.inj hx
    obtain ⟨td, htd, hmem⟩ := h.tag_group ha.tag_of_tagField
    exact key _ hmem _ _ (mem_group.mpr (.inr ((has_tagField htd).mp ha)))

/-- A value that ends with a newline can only come back from a longer one. -/
lemma values_of_has_written (h : v.Wf) (hp : v.Parsed)
    (hstated : ∀ a, v.Has a → ∃ record ∈ v.written, States record a) :
    ∀ a, v.Has a → ∀ x ∈ a.value, x.getLast? ≠ some nl := by
  obtain ⟨n, hn⟩ := exists_bound h
  intro a ha x hx hlast
  induction hm : n - x.length using Nat.strong_induction_on generalizing a x with
  | _ m ih =>
    obtain ⟨record, hrecord, hstates⟩ := hstated a ha
    obtain ⟨b, y, hb, hby, rfl⟩ := value_of_states h hrecord hstates hx
    by_cases hy : y.getLast? = some nl
    · have hlen : (reread y).length + 1 = y.length := by
        rw [reread, if_pos hy, List.length_dropLast]
        have hpos := List.length_pos_of_mem (List.mem_of_getLast? hy)
        omega
      have hle := hn b hb y hby
      exact ih _ (by omega) b hb y hby hy rfl
    · rw [reread_of_isValue (hp.isValue hb hby) hy] at hlast
      exact hy hlast

lemma rereadable_of_has_iff (h : v.Wf) (hp : v.Parsed)
    (hsame : ∀ a, v.Has a ↔ (empty.mergeAll v.written).Has a) : v.Rereadable := by
  have hstated : ∀ a, v.Has a → ∃ record ∈ v.written, States record a := fun a ha =>
    (has_of_has_mergeAll wf_empty ((hsame a).mp ha)).resolve_left (not_has_empty a)
  have hvalues := values_of_has_written h hp hstated
  have hplain : ∀ f k x, v.Has (.facetField f k x) → reread f = f := by
    intro f k x hx
    obtain ⟨record, hrecord, hstates⟩ := hstated _ hx
    obtain ⟨g, y, hy, hg, rfl⟩ := facet_of_states h hrecord hstates
    have hread := reread_of_isValue (hp.facetField g k y hy).1 hg
    rw [hread, hread]
  refine ⟨hvalues, hplain, fun f hf => ?_, fun f hf => ?_⟩
  · have hwritten := (@states_written_iff v (.facet (reread f)) h hp hvalues hplain).mpr
      (.inr ⟨f, hf, rfl⟩)
    obtain ⟨b, hb, hhas⟩ := exists_has_mergeAll wf_empty (.inr hwritten)
    obtain rfl : b = .facet (reread f) := by
      cases b <;> simp_all [Fact.subject]
    exact (hsame _).mpr hhas
  · exact (states_written_iff h hp hvalues hplain).mp (hstated _ hf)

lemma has_iff_of_rereadable (h : v.Wf) (hp : v.Parsed) (hv : v.Rereadable) (a : Fact) :
    v.Has a ↔ (empty.mergeAll v.written).Has a := by
  refine (has_mergeAll_iff (fun b => ?_) a).symm
  rw [states_written_iff h hp hv.values hv.plain]
  cases b with
  | facet f =>
    refine ⟨hv.regained f, ?_⟩
    rintro (⟨t, ht, rfl⟩ | ⟨g, hg, rfl⟩)
    · obtain ⟨td, htd⟩ := Option.isSome_iff_exists.mp ht
      obtain ⟨d, hd, -⟩ := tagData_eq_some_iff.mp htd
      exact has_facet hd
    · exact hv.kept g hg
  | facetField f k x => rfl
  | tag t => rfl
  | tagField t k x => rfl

/-- Writing a vocabulary that has been read and reading it back gives the same content exactly
when no tag name and no value ends with a newline, every facet with fields is read back under its
name, and the facets without fields are again the facets that tags and names that are read back
make. -/
theorem read_write_iff (h : (empty.read input).Returns (.ok (), v)) :
    (∃ v', (empty.read v.write).Returns (.ok (), v') ∧ v.Same v') ↔ v.Rereadable := by
  have hwf := wf_empty.read h
  have hp := parsed_of_read h
  rw [exists_same_iff hwf hp]
  exact ⟨rereadable_of_has_iff hwf hp, has_iff_of_rereadable hwf hp⟩

/-- A facet with a value of three lines, the second of them empty. -/
def threeLines : Record :=
  ((∅ : Record).insertIfNew (str "Facet") (str "a")).insertIfNew (str "D") (str "x\n\ny")

theorem read_write_threeLines :
    ∃ v, (empty.read (str "Facet: a\nD: x\n .\n y\n")).Returns (.ok (), v) ∧
      ∃ v', (empty.read v.write).Returns (.ok (), v') ∧ v.Same v' := by
  have hread : (empty.read (str "Facet: a\nD: x\n .\n y\n")).Returns
      (.ok (), empty.mergeAll [threeLines]) := by
    rw [read_denotes]
    rfl
  have hhas : ∀ a, (empty.mergeAll [threeLines]).Has a →
      a = .facet (str "a") ∨ a = .facetField (str "a") (str "D") (str "x\n\ny") := by
    intro a ha
    obtain ⟨record, hrecord, hstates⟩ :=
      (has_of_has_mergeAll wf_empty ha).resolve_left (not_has_empty a)
    obtain rfl := List.mem_singleton.mp hrecord
    apply ((states_facet_iff (by decide)).mp hstates).imp_right
    rintro ⟨k, x, hk, hx, rfl⟩
    rcases getElem?_insertIfNew_cases hx with hx | ⟨rfl, rfl⟩
    · rcases getElem?_insertIfNew_cases hx with hx | ⟨rfl, -⟩
      · simp at hx
      · exact absurd rfl hk
    · rfl
  have hplain : reread (str "a") = str "a" := by decide
  refine ⟨_, hread, (read_write_iff hread).mpr ⟨fun a ha => ?_, fun f k x hx => ?_, fun f hf => ?_,
    fun f hf => ?_⟩⟩
  · rcases hhas a ha with rfl | rfl
    · rintro x ⟨⟩
    · rintro x ⟨⟩
      decide
  · rcases hhas _ hx with h | h <;> cases h
    exact hplain
  · rcases hhas _ hf with h | h <;> cases h
    rwa [hplain]
  · rcases hhas _ hf with h | h <;> cases h
    exact .inr ⟨_, hf, hplain⟩

/-- A value that ends with an empty line cuts the record off. -/
theorem read_write_cut :
    ∃ v, (empty.read (str "Facet: a\nD: x\n .\n")).Returns (.ok (), v) ∧
      ¬∃ v', (empty.read v.write).Returns (.ok (), v') ∧ v.Same v' := by
  have hread : (empty.read (str "Facet: a\nD: x\n .\n")).Returns
      (.ok (), empty.mergeAll
        [((∅ : Record).insertIfNew (str "Facet") (str "a")).insertIfNew (str "D")
          (str "x\n")]) := by
    rw [read_denotes]
    rfl
  have hwf := wf_empty.read hread
  have hp := parsed_of_read hread
  refine ⟨_, hread, fun h => ?_⟩
  have hv := rereadable_of_has_iff hwf hp ((exists_same_iff hwf hp).mp h)
  exact hv.values (.facetField (str "a") (str "D") (str "x\n")) rfl _ rfl (by decide)

end Libept.Vocabulary
