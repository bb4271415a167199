import Mathlib.Data.List.Count
import Hwdb.Proofs.RepeatedKeys

/-!
# `Hwdb.Proofs.IndexHistory`: what an index tells after any records

Records go into an index one after the other, and it can be asked about repeated keys at any
time. `KeyIndex.Tells` says what the answer has to do with the records so far: which keys it
lists and in what order, all their places, and that the next record takes none of it back.

The invariant behind it is `KeyIndex.Holds`, which every further record keeps (`Holds.add`).
An index with this invariant tells the truth (`Holds.tells`), and so does the index of any
history (`tells_ofRecords`).
-/

set_option autoImplicit false

namespace Hwdb

/-- The places where some records have a match key with the given text. -/
def Record.sitesOf (key : Text) (rs : List Record) : List Site :=
  rs.flatMap fun r => (r.keys.filter (·.item.text = key)).map fun k => ⟨r.path, k.line⟩

namespace KeyIndex

/-- What an index that has got the given records tells about repeated keys. -/
structure Tells (index : KeyIndex) (rs : List Record) : Prop where
  /-- The texts of the keys come in the order of their bytes, -/
  pairwise_text : (index.repeated.map RepeatedKey.text).Pairwise Text.Before
  /-- and each of them once. -/
  nodup_text : (index.repeated.map RepeatedKey.text).Nodup
  /-- A match key is listed exactly if its connection and pattern have been there twice. -/
  mem_text_iff : ∀ k : MatchKey, k.text ∈ index.repeated.map RepeatedKey.text
    ↔ 2 ≤ ((declaredKeys rs).map MatchKey.pair).count k.pair
  /-- No text is listed that is not that of a match key. -/
  exists_key : ∀ text ∈ index.repeated.map RepeatedKey.text, ∃ k ∈ declaredKeys rs, k.text = text
  /-- A key comes with all its places, in the order of the records. -/
  sites_eq : ∀ e ∈ index.repeated, e.sites = Record.sitesOf e.text rs
  /-- Whatever record comes next, a key stays where it is listed, with its places in front of
  those that are new. -/
  sites_prefix_add : ∀ r, ∀ e ∈ index.repeated,
    ∃ e' ∈ (index.add r).repeated, e'.text = e.text ∧ e.sites <+: e'.sites

/-- The places of a key, as the index collects them, are the places where the records have a
match key with that text. -/
theorem sitesOf_declarations (key : Text) (rs : List Record) :
    sitesOf key (declarations rs) = Record.sitesOf key rs := by
  rw [sitesOf, declarations, Record.sitesOf, List.filter_flatMap, List.map_flatMap]
  refine List.flatMap_congr fun r _ => ?_
  rw [Record.declarations, List.filter_map, List.map_map]
  rfl

/-- A match key has as many places as its connection and pattern have declarations.
Different match keys have different texts, so counting texts is counting them. -/
theorem length_sitesOf_text (k : MatchKey) (rs : List Record) :
    (sitesOf k.text (declarations rs)).length
      = ((declaredKeys rs).map MatchKey.pair).count k.pair := by
  rw [length_sitesOf, ← map_text_declaredKeys,
    List.count_map_of_injective _ _ MatchKey.text_injective,
    List.count_map_of_injective _ _ MatchKey.pair_injective]

/-- A repeated key is still repeated after more declarations, and has its places in front.
What an index has told about a key is never taken back. -/
theorem Holds.exists_mem_repeated_add {index : KeyIndex} {ds : List Declaration}
    (h : index.Holds ds) (r : Record) {e : RepeatedKey} (he : e ∈ index.repeated) :
    ∃ e' ∈ (index.add r).repeated, e'.text = e.text ∧ e.sites <+: e'.sites := by
  obtain ⟨hsites, hlength⟩ := h.mem_repeated_iff.1 he
  -- The new places go behind the ones that are known.
  have hsplit : sitesOf e.text (ds ++ r.declarations)
      = e.sites ++ sitesOf e.text r.declarations := by
    rw [sitesOf_append, hsites]
  refine ⟨⟨e.text, sitesOf e.text (ds ++ r.declarations)⟩,
    (h.add r).mem_repeated_iff.2 ⟨rfl, ?_⟩, rfl, ?_⟩
  · rw [hsplit, List.length_append]
    omega
  · rw [hsplit]
    exact List.prefix_append _ _

/-- An index that holds the declarations of some records tells the truth about them. What
the index holds is a matter of `KeyIndex.Holds`, so each part here is about declarations
alone. -/
theorem Holds.tells {index : KeyIndex} {rs : List Record} (h : index.Holds (declarations rs)) :
    index.Tells rs where
  pairwise_text := index.pairwise_repeated
  nodup_text := index.pairwise_repeated.nodup
  mem_text_iff k := by
    rw [h.mem_map_text_repeated_iff, length_sitesOf_text]
    rfl
  exists_key text htext := by
    have hlength := h.mem_map_text_repeated_iff.1 htext
    rw [length_sitesOf, ← map_text_declaredKeys] at hlength
    exact List.mem_map.1 (List.count_pos_iff.1 (Nat.zero_lt_of_lt hlength))
  sites_eq e he := (h.mem_repeated_iff.1 he).1.trans (sitesOf_declarations e.text rs)
  sites_prefix_add r _ he := h.exists_mem_repeated_add r he

/-- After any records, one by one added to an index that was empty, the index tells the truth
about them. -/
theorem tells_ofRecords (rs : List Record) : (rs.foldl add empty).Tells rs :=
  (holds_ofRecords rs).tells

end KeyIndex

end Hwdb
