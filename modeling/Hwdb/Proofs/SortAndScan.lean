import Mathlib.Algebra.BigOperators.Group.List.Basic
import Mathlib.Data.List.Dedup
import Hwdb.Proofs.FileSequence

/-!
# `Hwdb.Proofs.SortAndScan`: repeated keys by sorting and scanning

The index is not the only way to find repeated keys. Sort the declarations by the texts of
their keys, those with the same text staying in their order. Then every declaration with the
same text as the one in front of it is one too many, and the first of its run is the
declaration to name (`Declaration.scan`).

Both ways give the same list (`repeatedKeyIssues_eq_scan`). What ties them together are the
declared keys in their order: sorted declarations are the runs of these keys one after the
other (`Declaration.sorted_eq_flatMap`), and a scan of runs gives what each of them gives
(`Declaration.scan_append_of_run`). The number of issues comes from the same runs, each of
which has one declaration more than it has issues (`length_repeatedKeyIssues_add`).
-/

set_option autoImplicit false

namespace Hwdb

open KeyIndex (sitesOf)

namespace Declaration

/-! ### Sorting and scanning -/

/-- Whether a declaration may stand in front of another one when they are sorted by the bytes
of their texts. -/
def le (d e : Declaration) : Bool :=
  (Text.byteOrder d.key e.key).isLE

/-- The declarations in the order of their texts. Those with the same text stay in the order
in which they are. -/
def sorted (ds : List Declaration) : List Declaration :=
  ds.mergeSort le

/-- The issues of the declarations that follow `last`, in a run that began with `first`. -/
def scanAfter (first last : Declaration) : List Declaration → List Issue
  | [] => []
  | d :: ds =>
      if d.key = last.key then .repeatedKey d.key d.site first.site :: scanAfter first d ds
      else scanAfter d d ds

/-- An issue for every declaration with the same text as the one in front of it, and the first
declaration of its run as the first place. -/
def scan : List Declaration → List Issue
  | [] => []
  | d :: ds => scanAfter d d ds

/-! ### The sorted declarations -/

/-- Declarations are sorted by their texts, and the order of texts is transitive. It is one
of the two facts that sorting asks for. -/
theorem le_trans (d e f : Declaration) (hde : le d e = true) (hef : le e f = true) :
    le d f = true :=
  Std.TransCmp.isLE_trans hde hef

/-- Of two declarations one may stand in front of the other. It is the other fact that
sorting asks for. -/
theorem le_total (d e : Declaration) : (le d e || le e d) = true := by
  have hswap : Text.byteOrder e.key d.key = (Text.byteOrder d.key e.key).swap :=
    Std.OrientedCmp.eq_swap
  rw [le, le, hswap]
  cases Text.byteOrder d.key e.key <;> rfl

/-- Declarations of one key may stand in any order, so a stable sort leaves them as they
are. -/
theorem le_of_key_eq {d e : Declaration} (h : d.key = e.key) : le d e = true := by
  have hself : Text.byteOrder e.key e.key = .eq := Std.ReflCmp.compare_self
  rw [le, h, hself]
  rfl

/-- A declaration may not stand in front of one whose key comes before its own. So in sorted
declarations a smaller key comes first. -/
theorem not_le_of_before {d e : Declaration} (h : Text.Before e.key d.key) :
    le d e = false := by
  have hgt : Text.byteOrder d.key e.key = .gt := Std.OrientedCmp.gt_of_lt h
  rw [le, hgt]
  rfl

/-- Sorted declarations are in order. It comes from the merge sort of the library. -/
theorem pairwise_sorted (ds : List Declaration) : (sorted ds).Pairwise (le · ·) :=
  List.pairwise_mergeSort le_trans le_total ds

/-- Sorting loses no declaration and brings none. So the keys of the sorted declarations are
the declared ones. -/
theorem mem_sorted {ds : List Declaration} {d : Declaration} : d ∈ sorted ds ↔ d ∈ ds :=
  (List.mergeSort_perm ds le).mem_iff

/-- The declarations of a key stay in their order. This is where it counts that the sort is
stable. -/
theorem filter_key_sorted (ds : List Declaration) (key : Text) :
    (sorted ds).filter (·.key = key) = ds.filter (·.key = key) := by
  have hrun : (ds.filter (·.key = key)).Pairwise (le · ·) := by
    refine List.pairwise_of_forall_mem_list fun d hd e he => le_of_key_eq ?_
    rw [of_decide_eq_true (List.mem_filter.1 hd).2, of_decide_eq_true (List.mem_filter.1 he).2]
  -- A list that is in order stands unchanged within what sorting makes of a longer one.
  have hwithin : (ds.filter (·.key = key)).Sublist (sorted ds) :=
    List.sublist_mergeSort le_trans le_total hrun List.filter_sublist
  have hfilter := hwithin.filter (·.key = key)
  simp only [List.filter_filter, Bool.and_self] at hfilter
  exact (hfilter.eq_of_length ((List.mergeSort_perm ds le).filter _).length_eq.symm).symm

/-- In a list that is in order, the declarations of the first key stand in front of the
others. It takes the first run off the list, and leaves the rest in order. -/
theorem filter_append_filter_not {ds : List Declaration} {key : Text}
    (h : ds.Pairwise (le · ·)) (hfirst : ∀ d ∈ ds, d.key ≠ key → Text.Before key d.key) :
    ds.filter (·.key = key) ++ ds.filter (·.key ≠ key) = ds := by
  induction ds with
  | nil => rfl
  | cons d ds ih =>
      obtain ⟨hd, h⟩ := List.pairwise_cons.1 h
      have ih := ih h fun e he => hfirst e (List.mem_cons_of_mem d he)
      by_cases hkey : d.key = key
      · simpa [hkey] using ih
      · -- Nothing behind `d` can have the key, for it would have to stand in front of `d`.
        have hnone : ∀ e ∈ ds, e.key ≠ key := by
          intro e he heq
          have hbefore := hfirst d List.mem_cons_self hkey
          rw [← heq] at hbefore
          exact Bool.false_ne_true ((not_le_of_before hbefore).symm.trans (hd e he))
        have hall : ∀ e ∈ d :: ds, e.key ≠ key := List.forall_mem_cons.2 ⟨hkey, hnone⟩
        rw [List.filter_eq_nil_iff.2 (by simpa using hall),
          List.filter_eq_self.2 (by simpa using hall), List.nil_append]

/-- A list that is in order has the declarations of one key after those of another, in the
order of the keys. -/
theorem eq_flatMap_filter {ds : List Declaration} {keys : List Text}
    (hkeys : keys.Pairwise Text.Before) (h : ds.Pairwise (le · ·))
    (hmem : ∀ d ∈ ds, d.key ∈ keys) :
    ds = keys.flatMap fun key => ds.filter (·.key = key) := by
  induction keys generalizing ds with
  | nil => exact List.eq_nil_iff_forall_not_mem.2 fun d hd => List.not_mem_nil (hmem d hd)
  | cons key keys ih =>
      obtain ⟨hfirst, hkeys⟩ := List.pairwise_cons.1 hkeys
      have hlater : ∀ d ∈ ds, d.key ≠ key → d.key ∈ keys := fun d hd hne =>
        (List.mem_cons.1 (hmem d hd)).resolve_left hne
      have hrest := ih hkeys (h.filter (·.key ≠ key)) fun d hd => by
        obtain ⟨hd, hne⟩ := List.mem_filter.1 hd
        exact hlater d hd (of_decide_eq_true hne)
      -- Without the first key, the runs of the others are what they were.
      have hruns : (keys.flatMap fun k => (ds.filter (·.key ≠ key)).filter (·.key = k))
          = keys.flatMap fun k => ds.filter (·.key = k) := by
        refine List.flatMap_congr fun k hk => ?_
        have hne : k ≠ key := fun heq => irrefl key (heq ▸ hfirst k hk)
        rw [List.filter_filter]
        refine List.filter_congr fun d _ => ?_
        by_cases hd : d.key = k <;> simp [hd, hne]
      rw [List.flatMap_cons, ← hruns, ← hrest]
      exact (filter_append_filter_not h fun d hd hne => hfirst _ (hlater d hd hne)).symm

/-- Sorted declarations are the runs of their keys, each run in the order it was in. The
list of keys may be any that is in order and has all of them. -/
theorem sorted_eq_flatMap {ds : List Declaration} {keys : List Text}
    (hkeys : keys.Pairwise Text.Before) (hmem : ∀ d ∈ ds, d.key ∈ keys) :
    sorted ds = keys.flatMap fun key => ds.filter (·.key = key) := by
  refine (eq_flatMap_filter hkeys (pairwise_sorted ds) fun d hd => ?_).trans ?_
  · exact hmem d (mem_sorted.1 hd)
  · exact List.flatMap_congr fun key _ => filter_key_sorted ds key

/-! ### Scanning runs -/

/-- The rest of a run has one issue for each declaration, and a new run begins behind it.
The first declaration of the run is named in all of them. -/
theorem scanAfter_append_of_run {first last : Declaration} {run rest : List Declaration}
    (hrun : ∀ d ∈ run, d.key = last.key) (hrest : ∀ d ∈ rest, d.key ≠ last.key) :
    scanAfter first last (run ++ rest)
      = run.map (fun d => .repeatedKey last.key d.site first.site) ++ scan rest := by
  induction run generalizing last with
  | nil =>
      cases rest with
      | nil => rfl
      | cons d rest => exact if_neg (hrest d List.mem_cons_self)
  | cons d run ih =>
      -- Now `d` is the one in front, and it has the key of `last`.
      obtain ⟨hd, hrun⟩ := List.forall_mem_cons.1 hrun
      rw [← hd] at hrun hrest ⊢
      rw [List.cons_append, scanAfter, if_pos hd, ih hrun hrest]
      rfl

/-- A run at the front gives the issues of its key. The first declaration has none, and the
others have one each. -/
theorem scan_append_of_run {key : Text} {run rest : List Declaration}
    (hrun : ∀ d ∈ run, d.key = key) (hrest : ∀ d ∈ rest, d.key ≠ key) :
    scan (run ++ rest) = keyIssues key (run.map site) ++ scan rest := by
  cases run with
  | nil => rfl
  | cons first run =>
      obtain ⟨rfl, hrun⟩ := List.forall_mem_cons.1 hrun
      have hafter : scanAfter first first (run ++ rest) = _ := scanAfter_append_of_run hrun hrest
      rw [List.cons_append, scan, hafter, keyIssues]
      simp [RepeatedKey.issues]

/-- A scan of the runs of some keys gives the issues of one key after those of another. The
runs do not mix, because no key is listed twice. -/
theorem scan_flatMap_filter (ds : List Declaration) {keys : List Text} (h : keys.Nodup) :
    scan (keys.flatMap fun key => ds.filter (·.key = key))
      = keys.flatMap fun key => keyIssues key (sitesOf key ds) := by
  induction keys with
  | nil => rfl
  | cons key keys ih =>
      obtain ⟨hkey, h⟩ := List.nodup_cons.1 h
      have hrun : ∀ d ∈ ds.filter (·.key = key), d.key = key := fun d hd =>
        of_decide_eq_true (List.mem_filter.1 hd).2
      -- Behind the run of a key there is no declaration of it any more.
      have hrest : ∀ d ∈ keys.flatMap fun k => ds.filter (·.key = k), d.key ≠ key := by
        intro d hd heq
        obtain ⟨k, hk, hd⟩ := List.mem_flatMap.1 hd
        rw [of_decide_eq_true (List.mem_filter.1 hd).2] at heq
        exact hkey (heq ▸ hk)
      rw [List.flatMap_cons, scan_append_of_run hrun hrest, ih h]
      rfl

end Declaration

/-! ### The texts of keys -/

/-- The texts of the keys of some records in their order, each of them once. -/
def keyTexts (rs : List Record) : List Text :=
  (KeyIndex.ofRecords rs).sites.keys

/-- The keys of records are listed in their order. It is the order in which issues are
reported. -/
theorem pairwise_keyTexts (rs : List Record) : (keyTexts rs).Pairwise Text.Before :=
  Std.TreeMap.ordered_keys

/-- A key is listed if it has a place. Unlike a repeated key, it needs no second one. -/
theorem mem_keyTexts_iff {rs : List Record} {key : Text} :
    key ∈ keyTexts rs ↔ 0 < (sitesOf key (declarations rs)).length := by
  rw [keyTexts, Std.TreeMap.mem_keys, Std.TreeMap.mem_iff_isSome_getElem?,
    KeyIndex.holds_ofRecords, List.length_pos_iff]
  by_cases hnil : sitesOf key (declarations rs) = [] <;> simp [hnil]

/-- Every declared key is listed. So the runs of the listed keys are all declarations. -/
theorem key_mem_keyTexts {rs : List Record} {d : Declaration} (h : d ∈ declarations rs) :
    d.key ∈ keyTexts rs := by
  have hsite : d.site ∈ sitesOf d.key (declarations rs) :=
    List.mem_map_of_mem (List.mem_filter.2 ⟨h, decide_eq_true rfl⟩)
  exact mem_keyTexts_iff.2 (List.length_pos_of_mem hsite)

/-- The sorted declarations are the runs of the declared keys. The scan then gives one run
after the other. -/
theorem sorted_declarations (rs : List Record) :
    Declaration.sorted (declarations rs)
      = (keyTexts rs).flatMap fun key => (declarations rs).filter (·.key = key) :=
  Declaration.sorted_eq_flatMap (pairwise_keyTexts rs) fun _ => key_mem_keyTexts

/-- There are as many texts of keys as there are connections with a pattern. Different pairs
have different texts, and the other way round. -/
theorem length_keyTexts (rs : List Record) :
    (keyTexts rs).length = ((declaredKeys rs).map MatchKey.pair).dedup.length := by
  have hperm : (keyTexts rs).Perm ((declaredKeys rs).map MatchKey.text).dedup := by
    refine (List.perm_ext_iff_of_nodup (pairwise_keyTexts rs).nodup (List.nodup_dedup _)).2
      fun key => ?_
    rw [mem_keyTexts_iff, List.mem_dedup, map_text_declaredKeys, KeyIndex.length_sitesOf,
      List.count_pos_iff]
  rw [hperm.length_eq, List.dedup_map_of_injective MatchKey.text_injective,
    List.dedup_map_of_injective MatchKey.pair_injective, List.length_map, List.length_map]

/-! ### The issues -/

/-- What brings nothing may be filtered out first. Keys with a single place are such
elements. -/
theorem flatMap_filter_of_eq_nil {α β : Type} {p : α → Bool} {f : α → List β} {l : List α}
    (h : ∀ a ∈ l, p a = false → f a = []) : (l.filter p).flatMap f = l.flatMap f := by
  induction l with
  | nil => rfl
  | cons a l ih =>
      obtain ⟨ha, hl⟩ := List.forall_mem_cons.1 h
      rw [List.filter_cons, List.flatMap_cons, ← ih hl]
      split
      · exact List.flatMap_cons
      · next hp => rw [ha (Bool.eq_false_of_not_eq_true hp), List.nil_append]

/-- Keys with one declaration may be counted in, for they bring no issue. In this form the
issues can be held against the runs of a sorted list. -/
theorem repeatedKeyIssues_eq_flatMap_keyTexts (rs : List Record) :
    repeatedKeyIssues rs
      = (keyTexts rs).flatMap fun key => keyIssues key (sitesOf key (declarations rs)) := by
  -- Both lists of keys are in order, so it is enough that they have the same members.
  have hrepeated : repeatedKeys rs
      = (keyTexts rs).filter fun key => 1 < (sitesOf key (declarations rs)).length := by
    refine (pairwise_repeatedKeys rs).eq_of_mem_iff ((pairwise_keyTexts rs).filter _)
      fun key => ?_
    rw [mem_repeatedKeys_iff, List.mem_filter, mem_keyTexts_iff, decide_eq_true_iff]
    exact ⟨fun h => ⟨Nat.zero_lt_of_lt h, h⟩, And.right⟩
  rw [repeatedKeyIssues_eq, hrepeated]
  refine flatMap_filter_of_eq_nil fun key _ hkey => List.length_eq_zero_iff.1 ?_
  rw [length_keyIssues, Nat.sub_eq_zero_iff_le]
  exact Nat.le_of_not_lt (of_decide_eq_false hkey)

/-- The issues about repeated keys are what a scan of the sorted declarations gives. Both
are the issues of one key after those of another, in the order of the texts. -/
theorem repeatedKeyIssues_eq_scan (rs : List Record) :
    repeatedKeyIssues rs = Declaration.scan (Declaration.sorted (declarations rs)) := by
  rw [sorted_declarations, Declaration.scan_flatMap_filter _ (pairwise_keyTexts rs).nodup,
    repeatedKeyIssues_eq_flatMap_keyTexts]

/-- Every declaration is either the first one of its key or an issue. The two counts are
taken key by key and added up. -/
theorem length_repeatedKeyIssues_add (rs : List Record) :
    (repeatedKeyIssues rs).length + (keyTexts rs).length = (declarations rs).length := by
  -- Each run is one longer than its issues are many.
  have hrun : ∀ key ∈ keyTexts rs, (keyIssues key (sitesOf key (declarations rs))).length + 1
      = ((declarations rs).filter (·.key = key)).length := by
    intro key hkey
    have hsites := mem_keyTexts_iff.1 hkey
    rw [length_keyIssues, Nat.sub_add_cancel hsites, sitesOf, List.length_map]
  calc (repeatedKeyIssues rs).length + (keyTexts rs).length
      = ((keyTexts rs).map fun key =>
          (keyIssues key (sitesOf key (declarations rs))).length + 1).sum := by
        rw [repeatedKeyIssues_eq_flatMap_keyTexts, List.length_flatMap, List.sum_map_add,
          List.map_const', List.sum_replicate_nat, Nat.mul_one]
    _ = ((keyTexts rs).flatMap fun key => (declarations rs).filter (·.key = key)).length := by
        rw [List.length_flatMap, List.map_congr_left hrun]
    _ = (declarations rs).length := by
        rw [← sorted_declarations]
        exact List.length_mergeSort _

/-- What is reported for a key are its declarations but the first one, which stands as the
first place in every issue. -/
theorem filterMap_places?_repeatedKeyIssues {rs : List Record} {d : Declaration}
    {before after : List Declaration} (h : declarations rs = before ++ d :: after)
    (hfirst : ∀ e ∈ before, e.key ≠ d.key) :
    (repeatedKeyIssues rs).filterMap (Issue.places? d.key)
      = (after.filter (·.key = d.key)).map fun e => (d.site, e.site) := by
  have hbefore : before.filter (·.key = d.key) = [] :=
    List.filter_eq_nil_iff.2 (by simpa using hfirst)
  have hsites : sitesOf d.key (declarations rs)
      = d.site :: (after.filter (·.key = d.key)).map Declaration.site := by
    rw [sitesOf, h, List.filter_append, hbefore, List.filter_cons, if_pos (decide_eq_true rfl)]
    rfl
  have hother : (rs.flatMap Record.propertyIssues).filterMap (Issue.places? d.key) = [] :=
    List.filterMap_eq_nil_iff.2 fun issue hissue =>
      Issue.places?_eq_none d.key (isAboutProperty_of_mem_propertyIssues hissue)
  have hissues := filterMap_places?_issues d.key rs
  rw [issues_ofRecords, List.filterMap_append, hother, List.append_nil] at hissues
  rw [hissues, hsites]
  split
  · rw [filterMap_places?_keyIssues, List.map_map]
    rfl
  · next hkey =>
      -- A key that is not repeated has no declaration behind the first one.
      rw [mem_repeatedKeys_iff, hsites, List.length_cons, List.length_map] at hkey
      have hnone : after.filter (·.key = d.key) = [] := List.length_eq_zero_iff.1 (by omega)
      rw [hnone]
      rfl

/-- Looking for repeated keys in the index gives what sorting the declarations and scanning
them gives, issue by issue. There are as many issues as there are match keys beyond the first
with their connection and pattern. So there is none exactly if these are all different, and the
first declaration of a key is only ever named as such. -/
theorem repeatedKeyIssues_by_scanning (rs : List Record) :
    repeatedKeyIssues rs = Declaration.scan (Declaration.sorted (declarations rs)) ∧
      (repeatedKeyIssues rs).length + ((declaredKeys rs).map MatchKey.pair).dedup.length
        = (declaredKeys rs).length ∧
      (repeatedKeyIssues rs = [] ↔ ((declaredKeys rs).map MatchKey.pair).Nodup) ∧
      ∀ before d after, declarations rs = before ++ d :: after →
        (∀ e ∈ before, e.key ≠ d.key) →
        (repeatedKeyIssues rs).filterMap (Issue.places? d.key)
          = (after.filter (·.key = d.key)).map fun e => (d.site, e.site) := by
  have hlength : (declarations rs).length = (declaredKeys rs).length := by
    have hkeys := congrArg List.length (map_text_declaredKeys rs).symm
    rwa [List.length_map, List.length_map] at hkeys
  have hnil : repeatedKeyIssues rs = [] ↔ ((declaredKeys rs).map MatchKey.pair).Nodup := by
    rw [repeatedKeyIssues_eq_nil_iff, ← map_text_declaredKeys,
      List.nodup_map_iff MatchKey.text_injective, List.nodup_map_iff MatchKey.pair_injective]
  refine ⟨repeatedKeyIssues_eq_scan rs, ?_, hnil, ?_⟩
  · rw [← length_keyTexts, length_repeatedKeyIssues_add, hlength]
  · intro before d after
    exact filterMap_places?_repeatedKeyIssues

/-- Two files that both have `b` for their first key. The first of them has it twice, and `a`
comes first in the order of the texts. -/
theorem repeatedKeyIssues_by_scanning_pair :
    ∃ (rs : List Record) (d : Declaration) (after : List Declaration),
      rs = [⟨⟨[97]⟩, 1, [⟨1, .libinput, .name, ['b']⟩, ⟨2, .libinput, .mouse, ['b']⟩,
          ⟨3, .libinput, .mouse, ['a']⟩, ⟨4, .libinput, .name, ['b']⟩], []⟩,
        ⟨⟨[98]⟩, 1, [⟨1, .libinput, .name, ['b']⟩, ⟨2, .libinput, .mouse, ['a']⟩], []⟩] ∧
      declarations rs = [] ++ d :: after ∧
      Declaration.scan (Declaration.sorted (declarations rs))
        = [.repeatedKey "libinput:mouse:a".toList ⟨⟨[98]⟩, 2⟩ ⟨⟨[97]⟩, 3⟩,
          .repeatedKey "libinput:name:b".toList ⟨⟨[97]⟩, 4⟩ ⟨⟨[97]⟩, 1⟩,
          .repeatedKey "libinput:name:b".toList ⟨⟨[98]⟩, 1⟩ ⟨⟨[97]⟩, 1⟩] ∧
      (repeatedKeyIssues rs).filterMap (Issue.places? d.key)
        = [(⟨⟨[97]⟩, 1⟩, ⟨⟨[97]⟩, 4⟩), (⟨⟨[97]⟩, 1⟩, ⟨⟨[98]⟩, 1⟩)] := by
  refine ⟨_, _, _, rfl, rfl, (repeatedKeyIssues_by_scanning _).1.symm.trans ?_,
    ((repeatedKeyIssues_by_scanning _).2.2.2 [] _ _ rfl (by simp)).trans ?_⟩ <;>
    decide +kernel

end Hwdb
