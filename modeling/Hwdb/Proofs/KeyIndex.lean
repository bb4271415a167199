import Mathlib.Data.List.Nodup
import Std.Data.TreeMap.Lemmas
import Hwdb.KeyIndex
import Hwdb.Text.Utf8

/-!
# `Hwdb.Proofs.KeyIndex`: the index holds the declarations it was given

`KeyIndex.Holds` ties an index to the declarations that went into it: every key has the
places of its own declarations, in their order, and a key without a declaration is not
there. Each further declaration keeps this (`Holds.declare`), and so it is true of the
index of any records (`holds_ofRecords`).

What the index says about repeated keys then depends on the declarations alone
(`Holds.mem_repeated_iff`). It says nothing exactly if no key is declared twice
(`Holds.repeated_eq_nil_iff`).
-/

set_option autoImplicit false

namespace Hwdb

/-! ### The order of texts -/

/-- A text can be told from its bytes, so the index, which orders keys by their bytes, does
not mix up two of them. -/
theorem Text.utf8_injective : Function.Injective Text.utf8 := by
  intro s t h
  have hs := Utf8.text?_utf8 s
  rw [h, Utf8.text?_utf8] at hs
  exact (Option.some.inj hs).symm

instance : Std.TransCmp Text.byteOrder :=
  inferInstanceAs (Std.TransCmp (compareOn Text.utf8))

/-- Texts with the same bytes are the same, so two texts of equal rank are one text. -/
instance : Std.LawfulEqCmp Text.byteOrder where
  compare_self := Std.ReflCmp.compare_self
  eq_of_compare h := Text.utf8_injective (Std.LawfulEqOrd.eq_of_compare h)

/-! ### Declarations -/

/-- A match key in a place that declares it. -/
structure Declaration where
  /-- The text of the key. -/
  key : Text
  /-- The place. -/
  site : Site
  deriving DecidableEq, Repr

/-- The declarations of a record, in the order of its match keys. -/
def Record.declarations (r : Record) : List Declaration :=
  r.keys.map fun k => ⟨k.item.text, ⟨r.path, k.line⟩⟩

/-- The declarations of some records, in the order of the records. -/
def declarations (rs : List Record) : List Declaration :=
  rs.flatMap Record.declarations

/-- The match keys of some records, one for each declaration. -/
def declaredKeys (rs : List Record) : List MatchKey :=
  (rs.flatMap Record.keys).map Numbered.item

/-- The texts of the declared match keys are the keys of the declarations. So what is
counted by match keys can be counted by texts. -/
theorem map_text_declaredKeys (rs : List Record) :
    (declaredKeys rs).map MatchKey.text = (declarations rs).map Declaration.key := by
  simp only [declarations, declaredKeys, Record.declarations, List.map_flatMap, List.map_map]
  rfl

namespace KeyIndex

/-- The places that declare a key, in the order of the declarations. -/
def sitesOf (key : Text) (ds : List Declaration) : List Site :=
  (ds.filter fun d => d.key = key).map Declaration.site

/-- The places of a key in two runs of declarations are those in the first one and then
those in the second one. -/
theorem sitesOf_append (key : Text) (ds es : List Declaration) :
    sitesOf key (ds ++ es) = sitesOf key ds ++ sitesOf key es := by
  rw [sitesOf, List.filter_append, List.map_append]
  rfl

/-- A key has as many places as declarations. A place may come twice, when one line is read
in two files of one path. -/
theorem length_sitesOf (key : Text) (ds : List Declaration) :
    (sitesOf key ds).length = (ds.map Declaration.key).count key := by
  induction ds with
  | nil => rfl
  | cons d ds ih =>
      rw [← List.singleton_append, sitesOf_append, List.length_append, ih, List.map_append,
        List.count_append]
      by_cases h : d.key = key <;> simp [sitesOf, h]

/-- The index knows the given declarations and no others. -/
def Holds (index : KeyIndex) (ds : List Declaration) : Prop :=
  ∀ key, index.sites[key]? = if sitesOf key ds = [] then none else some (sitesOf key ds)

/-- An empty index knows no declaration. All keys have no place, and none is listed. -/
theorem holds_empty : empty.Holds [] := by
  intro key
  exact Std.TreeMap.getElem?_emptyc

/-- One more declaration goes to the end of the places of its key, and the other keys keep
theirs. It is the step that `Holds.add` and `Holds.addAll` repeat. -/
theorem Holds.declare {index : KeyIndex} {ds : List Declaration} (h : index.Holds ds)
    (d : Declaration) : (index.declare d.key d.site).Holds (ds ++ [d]) := by
  intro key
  have halter : (index.declare d.key d.site).sites[key]? = _ := Std.TreeMap.getElem?_alter
  rw [halter, sitesOf_append]
  by_cases hkey : d.key = key
  · -- A key that is not there yet has had no place, so `getD` gives the places so far.
    have hsite : sitesOf key [d] = [d.site] := by simp [sitesOf, hkey]
    have hearlier : (index.sites[d.key]?).getD [] = sitesOf key ds := by
      rw [h d.key, hkey]
      split
      · next hnil => rw [hnil]; rfl
      · rfl
    rw [if_pos (Std.LawfulEqCmp.compare_eq_iff_eq.2 hkey), hearlier, hsite,
      if_neg (by simp)]
  · have hsite : sitesOf key [d] = [] := by simp [sitesOf, hkey]
    rw [if_neg fun heq => hkey (Std.LawfulEqCmp.compare_eq_iff_eq.1 heq), h key, hsite,
      List.append_nil]

/-- A record adds its declarations one by one. They come in the order of its match keys. -/
theorem Holds.add {index : KeyIndex} {ds : List Declaration} (h : index.Holds ds)
    (r : Record) : (index.add r).Holds (ds ++ r.declarations) := by
  unfold KeyIndex.add Record.declarations
  induction r.keys generalizing index ds with
  | nil => simpa using h
  | cons k ks ih =>
      have hstep := ih (h.declare ⟨k.item.text, ⟨r.path, k.line⟩⟩)
      rwa [List.append_assoc] at hstep

/-- Records add their declarations one record after the other. The induction is on the
records, which leaves an index between any two of them. -/
theorem Holds.addAll {index : KeyIndex} {ds : List Declaration} (h : index.Holds ds)
    (rs : List Record) : (rs.foldl KeyIndex.add index).Holds (ds ++ declarations rs) := by
  induction rs generalizing index ds with
  | nil => simpa [declarations] using h
  | cons r rs ih =>
      have hstep := ih (h.add r)
      rwa [List.append_assoc] at hstep

/-- The index of some records knows exactly their declarations. It is `Holds.addAll` from an
empty index. -/
theorem holds_ofRecords (rs : List Record) : (ofRecords rs).Holds (declarations rs) :=
  holds_empty.addAll rs

/-! ### Repeated keys -/

/-- A key is repeated if it has two declarations, and then it comes with the places of all
of them. An index lists no key with one place. -/
theorem Holds.mem_repeated_iff {index : KeyIndex} {ds : List Declaration}
    (h : index.Holds ds) {k : RepeatedKey} :
    k ∈ index.repeated ↔ k.sites = sitesOf k.text ds ∧ 1 < k.sites.length := by
  have hmem : k ∈ index.repeated
      ↔ index.sites[k.text]? = some k.sites ∧ 1 < k.sites.length := by
    rw [repeated, List.mem_map]
    constructor
    · rintro ⟨⟨text, sites⟩, hin, rfl⟩
      rw [List.mem_filter, Std.TreeMap.mem_toList_iff_getElem?_eq_some] at hin
      exact ⟨hin.1, of_decide_eq_true hin.2⟩
    · intro ⟨hsites, hlength⟩
      refine ⟨(k.text, k.sites), ?_, rfl⟩
      rw [List.mem_filter, Std.TreeMap.mem_toList_iff_getElem?_eq_some]
      exact ⟨hsites, decide_eq_true hlength⟩
  rw [hmem, h k.text]
  -- The index leaves out keys without a place, which are not repeated anyway.
  refine and_congr_left fun hlength => ?_
  split
  · next hnil =>
      rw [hnil]
      constructor
      · intro hnone
        cases hnone
      · intro hsites
        rw [hsites] at hlength
        cases hlength
  · rw [Option.some.injEq, eq_comm]

/-- No key is repeated exactly if all declared keys are different. Two declarations in one
record count like two in different files. -/
theorem Holds.repeated_eq_nil_iff {index : KeyIndex} {ds : List Declaration}
    (h : index.Holds ds) : index.repeated = [] ↔ (ds.map Declaration.key).Nodup := by
  rw [List.eq_nil_iff_forall_not_mem, List.nodup_iff_count_le_one]
  constructor
  · intro hnone key
    have hkey := h.mem_repeated_iff.not.1 (hnone ⟨key, sitesOf key ds⟩)
    rw [← length_sitesOf]
    -- A key with two places would be a repeated key.
    by_contra hlength
    exact hkey ⟨rfl, by simpa using hlength⟩
  · intro hcount k hk
    obtain ⟨hsites, hlength⟩ := h.mem_repeated_iff.1 hk
    have hk := hcount k.text
    rw [← length_sitesOf, ← hsites] at hk
    omega

end KeyIndex

end Hwdb
