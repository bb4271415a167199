import Mathlib.Data.List.Dedup
import Mathlib.Data.List.Flatten
import Mathlib.Data.List.Sort
import Hwdb.Proofs.Findings

/-!
# `Hwdb.Proofs.RepeatedKeys`: the repeated keys of some records

The issues about repeated keys depend on the declarations alone. `repeatedKeys` has the keys
with two declarations at least, in the order of their texts and each of them once
(`pairwise_repeatedKeys`, `mem_repeatedKeys_iff`), and every key brings the issues of its
places (`repeatedKeyIssues_eq`). Keys are told apart by their texts, for these determine them
(`MatchKey.text_injective`).

A list like this is determined by its members. So more declarations only put more keys in
between (`repeatedKeys_sublist_append`), and the order of the declarations has no say in which
keys there are (`repeatedKeys_eq_of_perm`).
-/

set_option autoImplicit false

namespace Hwdb

/-! ### The order of texts -/

/-- The first text comes before the second one when keys are listed. -/
def Text.Before (s t : Text) : Prop :=
  Text.byteOrder s t = .lt

instance : Std.Irrefl Text.Before where
  irrefl s h := by
    have hself : Text.byteOrder s s = .eq := Std.ReflCmp.compare_self
    rw [Text.Before, hself] at h
    cases h

instance : Std.Antisymm Text.Before where
  antisymm s t hst hts := by
    have hgt : Text.byteOrder t s = .gt := Std.OrientedCmp.gt_of_lt hst
    rw [Text.Before, hgt] at hts
    cases hts

/-! ### The keys of declarations -/

open KeyIndex (sitesOf)

/-- The connection and the pattern of a match key. -/
def MatchKey.pair (k : MatchKey) : Connection × Text :=
  (k.connection, k.pattern)

/-- There is one category only, so the rest of a match key determines it. So counting match
keys is counting their connections with their patterns. -/
theorem MatchKey.pair_injective : Function.Injective MatchKey.pair := by
  rintro ⟨⟨⟩, n, s⟩ ⟨⟨⟩, n', s'⟩ h
  obtain ⟨rfl, rfl⟩ := Prod.mk.inj h
  rfl

/-- A pattern may have colons and keywords in it, but the connection in front of it can be
read in one way only. -/
theorem MatchKey.text_injective : Function.Injective MatchKey.text := by
  rintro ⟨⟨⟩, n, s⟩ ⟨⟨⟩, n', s'⟩ h
  have hrest : n.keyword ++ ':' :: s = n'.keyword ++ ':' :: s' := by simpa [text] using h
  have hread := (Category.connectionReader_eq_ok_iff (c := .libinput)).2 hrest
  rw [Category.connectionReader_eq_ok_iff.2 rfl] at hread
  cases hread
  rfl

/-- The declarations of two lists of records are those of the first one and then those of
the second one. The index is given them in that order. -/
theorem declarations_append (rs qs : List Record) :
    declarations (rs ++ qs) = declarations rs ++ declarations qs :=
  List.flatMap_append

/-! ### Keys with two declarations -/

/-- The keys that some records declare more than once, in the order of their texts. -/
def repeatedKeys (rs : List Record) : List Text :=
  (KeyIndex.ofRecords rs).repeated.map RepeatedKey.text

/-- An index lists its keys in their order. An index keeps them in a tree that is ordered by
their bytes. -/
theorem KeyIndex.pairwise_repeated (index : KeyIndex) :
    (index.repeated.map RepeatedKey.text).Pairwise Text.Before := by
  have htexts : index.repeated.map RepeatedKey.text
      = (index.sites.toList.filter fun e => 1 < e.2.length).map Prod.fst := by
    rw [repeated, List.map_map]
    rfl
  rw [htexts, List.pairwise_map]
  exact Std.TreeMap.ordered_keys_toList.filter _

/-- Repeated keys are listed in their order. So two lists of them with the same members are
one list. -/
theorem pairwise_repeatedKeys (rs : List Record) : (repeatedKeys rs).Pairwise Text.Before :=
  (KeyIndex.ofRecords rs).pairwise_repeated

/-- No repeated key is listed twice, as none comes before itself. The issues of a key are
therefore reported once. -/
theorem nodup_repeatedKeys (rs : List Record) : (repeatedKeys rs).Nodup :=
  (pairwise_repeatedKeys rs).nodup

/-- A text is listed if it has two declarations. They may be in one record, or in records of
different files. -/
theorem KeyIndex.Holds.mem_map_text_repeated_iff {index : KeyIndex} {ds : List Declaration}
    (h : index.Holds ds) {key : Text} :
    key ∈ index.repeated.map RepeatedKey.text ↔ 1 < (sitesOf key ds).length := by
  rw [List.mem_map]
  constructor
  · rintro ⟨k, hk, rfl⟩
    obtain ⟨hsites, hlength⟩ := h.mem_repeated_iff.1 hk
    rwa [hsites] at hlength
  · intro hlength
    exact ⟨⟨key, sitesOf key ds⟩, h.mem_repeated_iff.2 ⟨rfl, hlength⟩, rfl⟩

/-- A key is repeated exactly if some records declare it in two places. The index is only
the way in which they are found. -/
theorem mem_repeatedKeys_iff {rs : List Record} {key : Text} :
    key ∈ repeatedKeys rs ↔ 1 < (sitesOf key (declarations rs)).length :=
  (KeyIndex.holds_ofRecords rs).mem_map_text_repeated_iff

/-- The issues of a key that is declared at the given places. -/
def keyIssues (key : Text) (sites : List Site) : List Issue :=
  RepeatedKey.issues ⟨key, sites⟩

/-- A key has one issue for each of its places but the first. For a key without a place
there is none either. -/
theorem length_keyIssues (key : Text) (sites : List Site) :
    (keyIssues key sites).length = sites.length - 1 :=
  RepeatedKey.length_issues ⟨key, sites⟩

/-- Each repeated key brings the issues of the places that declare it. The index does not
come into it any more: what is reported is said by the declarations. -/
theorem repeatedKeyIssues_eq (rs : List Record) :
    repeatedKeyIssues rs
      = (repeatedKeys rs).flatMap fun key => keyIssues key (sitesOf key (declarations rs)) := by
  rw [repeatedKeyIssues, repeatedKeys, List.flatMap_map]
  refine List.flatMap_congr fun k hk => ?_
  have hsites := ((KeyIndex.holds_ofRecords rs).mem_repeated_iff.1 hk).1
  rw [keyIssues, ← hsites]

/-! ### More declarations -/

/-- More places bring more issues of a key, behind those of the places before. The first
place does not change, and each of the others keeps its issue. -/
theorem keyIssues_sublist_append (key : Text) (sites more : List Site) :
    (keyIssues key sites).Sublist (keyIssues key (sites ++ more)) := by
  cases sites with
  | nil => exact List.nil_sublist _
  | cons first extra =>
      show (extra.map _).Sublist ((extra ++ more).map _)
      rw [List.map_append]
      exact List.sublist_append_left _ _

/-- With more records, the repeated keys are still there in their order. No key stops being
repeated, and new ones come in between. -/
theorem repeatedKeys_sublist_append (rs more : List Record) :
    (repeatedKeys rs).Sublist (repeatedKeys (rs ++ more)) := by
  have hsubset : repeatedKeys rs ⊆ repeatedKeys (rs ++ more) := by
    intro key hkey
    rw [mem_repeatedKeys_iff] at hkey ⊢
    rw [declarations_append, KeyIndex.sitesOf_append, List.length_append]
    omega
  -- Both lists are in order, so the one with fewer keys has them in the order of the other.
  exact List.sublist_of_subperm_of_pairwise
    (List.subperm_of_subset (nodup_repeatedKeys rs) hsubset)
    (pairwise_repeatedKeys rs) (pairwise_repeatedKeys (rs ++ more))

/-- With more records, every issue about a repeated key stays as it was. The keys keep their
order, and the issues of each key keep theirs. -/
theorem repeatedKeyIssues_sublist_append (rs more : List Record) :
    (repeatedKeyIssues rs).Sublist (repeatedKeyIssues (rs ++ more)) := by
  rw [repeatedKeyIssues_eq, repeatedKeyIssues_eq]
  refine (List.Sublist.flatMap_right _ fun key _ => ?_).trans
    ((repeatedKeys_sublist_append rs more).flatMap _)
  rw [declarations_append, KeyIndex.sitesOf_append]
  exact keyIssues_sublist_append key _ _

/-! ### Another order of declarations -/

/-- A key has the same places in any order of the records. Only their order may be another
one, and with it the first place. -/
theorem sitesOf_perm {rs qs : List Record} (h : rs.Perm qs) (key : Text) :
    (sitesOf key (declarations rs)).Perm (sitesOf key (declarations qs)) :=
  ((h.flatMap_right Record.declarations).filter _).map _

/-- The repeated keys and their order are the same in any order of the records: both lists
are ordered by the same rule and have the same members. -/
theorem repeatedKeys_eq_of_perm {rs qs : List Record} (h : rs.Perm qs) :
    repeatedKeys rs = repeatedKeys qs := by
  refine (pairwise_repeatedKeys rs).eq_of_mem_iff (pairwise_repeatedKeys qs) fun key => ?_
  rw [mem_repeatedKeys_iff, mem_repeatedKeys_iff, (sitesOf_perm h key).length_eq]

end Hwdb
