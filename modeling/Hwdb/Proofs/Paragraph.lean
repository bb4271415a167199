import Hwdb.Proofs.Assembly
import Hwdb.Proofs.Grammar

/-!
# `Hwdb.Proofs.Paragraph`: files as trees of the grammar

`Paragraph` is a block as a tree of the grammar, and `Divides` a file as a list of them.
`mem_file_iff` says that the lines of a file divide in this way exactly if they are in the
language of files.

A block that is filled line by line without a fault is always in `Shape`, and if it may end,
it is a tree (`exists_valid`). The other way round, the lines of a tree fill a block without
a fault (`orderly_lines`). So reading accepts the language of files, and gives one record
for each header with its body (`Record.parse_accepts_file`).
-/

set_option autoImplicit false

namespace Hwdb

open Layout (Orderly fault? endFault? hasBody)

/-! ### Trees -/

/-- A block as a tree of the grammar. -/
inductive Paragraph
  /-- A block of comments. -/
  | comments (ls : List (Numbered Line))
  /-- A record: its match keys, then its properties. -/
  | record (header body : List (Numbered Line))

namespace Paragraph

/-- The kinds of some lines. -/
def kinds (ls : List (Numbered Line)) : List Line.Kind :=
  ls.map fun l => l.item.kind

/-- The lines of a block. -/
def lines : Paragraph → List (Numbered Line)
  | comments ls => ls
  | record header body => header ++ body

/-- Each part of the tree is what the grammar calls it. -/
def Valid : Paragraph → Prop
  | comments ls => kinds ls ∈ Grammar.comments
  | record header body => kinds header ∈ Grammar.header ∧ kinds body ∈ Grammar.body

/-- What the record of a block holds: its match keys and its properties. A block of
comments has no record. -/
def contents? : Paragraph → Option (List (Numbered MatchKey) × List (Numbered Property))
  | comments _ => none
  | record header body =>
      some (Layout.keys (header ++ body), Layout.properties (header ++ body))

/-- The kinds of two runs of lines are those of the first one and then those of the second
one. A word of the grammar is cut where its lines are. -/
theorem kinds_append (ls ms : List (Numbered Line)) :
    kinds (ls ++ ms) = kinds ls ++ kinds ms :=
  List.map_append

/-- A kind is among those of some lines if one of the lines is of it. So what is said of
kinds is said of lines. -/
theorem mem_kinds {ls : List (Numbered Line)} {k : Line.Kind} :
    k ∈ kinds ls ↔ ∃ l ∈ ls, l.item.kind = k :=
  List.mem_map

/-- Whether a block has match keys can be told from the kinds of its lines. With the two
lemmas below, all that `fault?` asks of a block is a question about kinds, which is the
language of the grammar. -/
theorem keys_eq_nil_iff {ls : List (Numbered Line)} :
    Layout.keys ls = [] ↔ .key ∉ kinds ls := by
  have hkind : ∀ l : Line, l.key? = none ↔ l.kind ≠ .key := fun l => by
    cases l <;> simp [Line.key?, Line.kind]
  simp only [Layout.keys_eq_nil_iff, hkind, mem_kinds, not_exists, not_and, ne_eq]

/-- Whether a block has properties can be told from the kinds of its lines. Only a line that
is read as a property is of that kind. -/
theorem properties_eq_nil_iff {ls : List (Numbered Line)} :
    Layout.properties ls = [] ↔ .property ∉ kinds ls := by
  have hkind : ∀ l : Line, l.property? = none ↔ l.kind ≠ .property := fun l => by
    cases l <;> simp [Line.property?, Line.kind]
  simp only [Layout.properties_eq_nil_iff, hkind, mem_kinds, not_exists, not_and, ne_eq]

/-- Whether a block goes on to its properties can be told from the kinds of its lines. They
are the two kinds that may begin a body. -/
theorem hasBody_eq_false_iff {ls : List (Numbered Line)} :
    hasBody ls = false ↔ ∀ k ∈ kinds ls, k ≠ .indentedComment ∧ k ≠ .property := by
  have hkind : ∀ l : Line, l.isBody = false
      ↔ l.kind ≠ .indentedComment ∧ l.kind ≠ .property := fun l => by
    cases l <;> simp [Line.isBody, Line.kind]
  simp only [Layout.hasBody_eq_false_iff, hkind, kinds, List.forall_mem_map]

/-- The lines of a tree are a word of the language of blocks. The cases are the two sides of
the language. -/
theorem kinds_lines_mem_block {p : Paragraph} (h : p.Valid) :
    kinds p.lines ∈ Grammar.block := by
  cases p with
  | comments ls => exact Or.inl h
  | record header body =>
      rw [lines, kinds_append]
      exact Or.inr (Language.append_mem_mul h.1 h.2)

/-- The kinds of lines that may come next without ending the block: a comment always, a
match key before the properties, and what belongs to properties after a match key. -/
theorem kind_of_fault?_eq_none {b : List (Numbered Line)} {l : Line} (hblank : l ≠ .blank)
    (h : fault? b l = none) :
    l.kind = .comment ∨ (l.kind = .key ∧ hasBody b = false) ∨
      ((l.kind = .indentedComment ∨ l.kind = .property) ∧ Layout.keys b ≠ []) := by
  cases l with
  | blank => exact absurd rfl hblank
  | comment => exact Or.inl rfl
  | indentedComment =>
      refine Or.inr (Or.inr ⟨Or.inl rfl, fun hkeys => ?_⟩)
      simp [fault?, hkeys] at h
  | key k =>
      refine Or.inr (Or.inl ⟨rfl, Bool.eq_false_iff.2 fun hbody => ?_⟩)
      simp [fault?, hbody] at h
  | property p =>
      refine Or.inr (Or.inr ⟨Or.inr rfl, fun hkeys => ?_⟩)
      simp [fault?, hkeys] at h
  | malformedProperty t =>
      -- Malformed lines have a fault before a match key and after one.
      by_cases hkeys : Layout.keys b = [] <;> simp [fault?, hkeys] at h
  | unknown t => cases h

/-- What an orderly block looks like: comments, or a header, or a header and a body that may
still want a property. -/
inductive Shape : List (Numbered Line) → Prop
  | comments {b : List (Numbered Line)} : (∀ k ∈ kinds b, k = .comment) → Shape b
  | header {c : List (Numbered Line)} : kinds c ∈ Grammar.header → Shape c
  | body {c d : List (Numbered Line)} :
      kinds c ∈ Grammar.header → kinds d ∈ Grammar.bodyRun → Shape (c ++ d)

/-- Comments alone have no match key among them. So they can be told from a header by the
first match key. -/
theorem keys_eq_nil_of_comments {b : List (Numbered Line)}
    (h : ∀ k ∈ kinds b, k = .comment) : Layout.keys b = [] := by
  rw [keys_eq_nil_iff]
  intro hkey
  cases h _ hkey

/-- A header has a match key, whatever follows it. So a block with a header has a record,
and wants a property. -/
theorem keys_append_ne_nil {c : List (Numbered Line)} (h : kinds c ∈ Grammar.header)
    (d : List (Numbered Line)) : Layout.keys (c ++ d) ≠ [] := by
  have hkey := (Grammar.mem_header_iff.1 h).2
  rw [ne_eq, keys_eq_nil_iff, kinds_append, List.mem_append, not_or, not_and]
  intro hno
  exact absurd hkey hno

/-- The lines after a header belong to properties, whatever stands before them. After them a
match key is a fault. -/
theorem hasBody_of_mem_bodyRun {d : List (Numbered Line)} (h : kinds d ∈ Grammar.bodyRun)
    (c : List (Numbered Line)) : hasBody (c ++ d) ≠ false := by
  obtain ⟨k, w, hw, hk, -⟩ := Grammar.mem_bodyRun_iff.1 h
  rw [ne_eq, hasBody_eq_false_iff, kinds_append, hw]
  intro hno
  have hknot := hno k (by simp)
  exact hk.elim hknot.1 hknot.2

/-- One more line that may come next keeps a block in shape. It is the step of
`shape_of_orderly`. -/
theorem Shape.concat {b : List (Numbered Line)} {l : Numbered Line} (h : Shape b)
    (hblank : l.item ≠ .blank) (hfault : fault? b l.item = none) : Shape (b ++ [l]) := by
  have hl := kind_of_fault?_eq_none hblank hfault
  have happend : ∀ d, kinds (d ++ [l]) = kinds d ++ [l.item.kind] := fun d =>
    kinds_append d [l]
  -- What may come next depends on the shape so far, and says which shape comes next.
  cases h with
  | comments hcomments =>
      rcases hl with hcomment | ⟨hkey, -⟩ | ⟨-, hkeys⟩
      · refine .comments fun k hk => ?_
        rw [happend, hcomment, List.mem_append, List.mem_singleton] at hk
        exact hk.elim (hcomments k) id
      · refine .header ?_
        rw [happend, hkey]
        exact Grammar.concat_mem_header_of_comments hcomments
      · exact absurd (keys_eq_nil_of_comments hcomments) hkeys
  | header hheader =>
      rcases hl with hcomment | ⟨hkey, -⟩ | ⟨hbody, -⟩
      · refine .header ?_
        rw [happend]
        exact Grammar.concat_mem_header hheader (Or.inl hcomment)
      · refine .header ?_
        rw [happend]
        exact Grammar.concat_mem_header hheader (Or.inr hkey)
      · exact .body hheader (Grammar.singleton_mem_bodyRun hbody)
  | @body c d hheader hrun =>
      have hkind : l.item.kind = .comment ∨ l.item.kind = .indentedComment
          ∨ l.item.kind = .property := by
        rcases hl with hcomment | ⟨-, hno⟩ | ⟨hbody, -⟩
        · exact Or.inl hcomment
        · exact absurd hno (hasBody_of_mem_bodyRun hrun c)
        · exact Or.inr hbody
      rw [List.append_assoc]
      refine .body hheader ?_
      rw [happend]
      exact Grammar.concat_mem_bodyRun hrun hkind

/-- An orderly block is in shape. The induction is on how the block was filled, one line
after the other. -/
theorem shape_of_orderly {b : List (Numbered Line)} (h : Orderly b) : Shape b := by
  induction h with
  | nil => exact .comments (by simp [kinds])
  | concat _ hblank hfault ih => exact ih.concat hblank hfault

/-- An orderly block that has a line and may end is a tree of the grammar: the body of a
record that is still in want of a property is the one shape that may not end. -/
theorem exists_valid {b : List (Numbered Line)} (h : Orderly b) (hne : b ≠ [])
    (hend : endFault? b = none) : ∃ p : Paragraph, p.Valid ∧ p.lines = b := by
  -- With a match key in it, the block may only end because it has a property, too.
  have hproperty : ∀ c d, b = c ++ d → kinds c ∈ Grammar.header → .property ∈ kinds d := by
    rintro c d rfl hheader
    by_contra hno
    have hall := (Grammar.mem_header_iff.1 hheader).1
    have hnone : .property ∉ kinds (c ++ d) := by
      rw [kinds_append, List.mem_append, not_or]
      refine ⟨fun hmem => ?_, hno⟩
      rcases hall _ hmem with h | h <;> cases h
    rw [endFault?, if_pos ⟨keys_append_ne_nil hheader d, properties_eq_nil_iff.2 hnone⟩]
      at hend
    cases hend
  cases shape_of_orderly h with
  | comments hcomments =>
      refine ⟨comments b, Grammar.mem_comments_iff.2 ⟨?_, hcomments⟩, rfl⟩
      simpa [kinds] using hne
  | header hheader => cases hproperty b [] (List.append_nil b).symm hheader
  | @body c d hheader hrun =>
      exact ⟨record c d, ⟨hheader, hrun, hproperty c d rfl hheader⟩, rfl⟩

/-- A block goes on orderly as long as each further line may stand where it stands. So to
fill a block with a whole run of lines it is enough to look at one place in the run. -/
theorem orderly_append {b c : List (Numbered Line)} (hb : Orderly b)
    (hc : ∀ before l after, c = before ++ l :: after →
      l.item ≠ .blank ∧ fault? (b ++ before) l.item = none) : Orderly (b ++ c) := by
  induction c generalizing b with
  | nil => rwa [List.append_nil]
  | cons l c ih =>
      have hl := hc [] l c rfl
      rw [List.append_nil] at hl
      rw [List.append_cons]
      refine ih (.concat hb hl.1 hl.2) fun before m after hm => ?_
      have hm' := hc (l :: before) m after (by rw [hm]; rfl)
      rwa [List.append_cons] at hm'

/-- Comments fill a block without a fault. A comment may come after any line. -/
theorem orderly_of_comments {b : List (Numbered Line)}
    (h : ∀ k ∈ kinds b, k = .comment) : Orderly b := by
  rw [← List.nil_append b]
  refine orderly_append .nil fun before l after hb => ?_
  have hl : l.item = .comment := by
    have hkind := h l.item.kind (mem_kinds.2 ⟨l, by simp [hb], rfl⟩)
    cases hitem : l.item <;> rw [hitem] at hkind <;> first | rfl | cases hkind
  rw [hl]
  exact ⟨by simp, rfl⟩

/-- A header fills a block without a fault: as long as nothing belongs to properties, a
match key may always come. -/
theorem orderly_header {c : List (Numbered Line)} (h : kinds c ∈ Grammar.header) :
    Orderly c := by
  have hall := (Grammar.mem_header_iff.1 h).1
  -- Among comments and match keys nothing belongs to properties, so each line may come.
  rw [← List.nil_append c]
  refine orderly_append .nil fun before l after hc => ?_
  have hbody : hasBody ([] ++ before) = false := by
    rw [List.nil_append, hasBody_eq_false_iff]
    intro k hk
    rcases hall k (by rw [hc, kinds_append]; exact List.mem_append_left _ hk) with rfl | rfl
    · exact ⟨by simp, by simp⟩
    · exact ⟨by simp, by simp⟩
  have hkind := hall l.item.kind (mem_kinds.2 ⟨l, by simp [hc], rfl⟩)
  cases hitem : l.item with
  | comment => exact ⟨by simp, rfl⟩
  | key k => exact ⟨by simp, if_neg (by rw [hbody]; exact Bool.false_ne_true)⟩
  | _ => simp [hitem, Line.kind] at hkind

/-- A header and what follows it fill a block without a fault: after a match key, the lines
of the properties may always come. -/
theorem orderly_record {c d : List (Numbered Line)} (h : kinds c ∈ Grammar.header)
    (hrun : kinds d ∈ Grammar.bodyRun) : Orderly (c ++ d) := by
  obtain ⟨first, w, hw, hfirst, hall⟩ := Grammar.mem_bodyRun_iff.1 hrun
  refine orderly_append (orderly_header h) fun before l after hd => ?_
  have hkeys := keys_append_ne_nil h before
  have hkind : l.item.kind = .comment ∨ l.item.kind = .indentedComment
      ∨ l.item.kind = .property := by
    have hmem : l.item.kind ∈ first :: w := by
      rw [← hw]
      exact mem_kinds.2 ⟨l, by simp [hd], rfl⟩
    rcases List.mem_cons.1 hmem with heq | hmem
    · exact Or.inr (heq ▸ hfirst)
    · exact hall _ hmem
  cases hitem : l.item with
  | comment => exact ⟨by simp, rfl⟩
  | indentedComment => exact ⟨by simp, if_neg hkeys⟩
  | property p => exact ⟨by simp, if_neg hkeys⟩
  | _ => simp [hitem, Line.kind] at hkind

/-- The lines of a tree are an orderly block that may end. This is the way from the grammar
to the layout, and `exists_valid` is the way back. -/
theorem orderly_lines {p : Paragraph} (h : p.Valid) :
    Orderly p.lines ∧ p.lines ≠ [] ∧ endFault? p.lines = none := by
  cases p with
  | comments ls =>
      obtain ⟨hne, hcomments⟩ := Grammar.mem_comments_iff.1 h
      refine ⟨orderly_of_comments hcomments, fun hnil => hne ?_, ?_⟩
      · rw [show ls = [] from hnil]
        rfl
      · exact if_neg fun hend => hend.1 (keys_eq_nil_of_comments hcomments)
  | record c d =>
      obtain ⟨hheader, hrun, hproperty⟩ := h
      refine ⟨orderly_record hheader hrun, fun hnil => ?_, ?_⟩
      · have hkeys := keys_append_ne_nil hheader d
        rw [show c ++ d = [] from hnil] at hkeys
        exact hkeys rfl
      · -- The body has a property, which is what the end of a block with match keys asks
        -- for.
        refine if_neg fun hend => properties_eq_nil_iff.1 hend.2 ?_
        rw [lines, kinds_append]
        exact List.mem_append_right _ hproperty

end Paragraph

/-- Lines that divide into blocks, each but the last one with a blank line after it. -/
inductive Divides : List (Numbered Line) → List Paragraph → Prop
  | none : Divides [] []
  | last {p : Paragraph} : p.Valid → Divides p.lines [p]
  | cons {p : Paragraph} {n : Nat} {ls : List (Numbered Line)} {ps : List Paragraph} :
      p.Valid → Divides ls ps → Divides (p.lines ++ ⟨n, .blank⟩ :: ls) (p :: ps)

/-- Each part of a divided file is a tree of the grammar. The blank lines between the parts
belong to none of them. -/
theorem Divides.valid {ls : List (Numbered Line)} {ps : List Paragraph}
    (h : Divides ls ps) : ∀ p ∈ ps, p.Valid := by
  induction h with
  | none => simp
  | last hp => simpa using hp
  | cons hp _ ih => exact List.forall_mem_cons.2 ⟨hp, ih⟩

/-! ### Files -/

namespace Layout

/-- The lines of an orderly block may come one after the other, and become the block in
hand. No line of it is blank, so it stays one block. -/
theorem accepts_of_orderly (ended : List (List (Numbered Line))) {b : List (Numbered Line)}
    (h : Orderly b) :
    (⟨ended, []⟩ : Layout).Accepts b ∧ (⟨ended, []⟩ : Layout).addAll b = ⟨ended, b⟩ := by
  induction h with
  | nil => exact ⟨trivial, rfl⟩
  | concat _ hblank hfault ih =>
      rw [accepts_append, addAll_append, ih.2]
      exact ⟨⟨ih.1, hfault, trivial⟩, add_of_ne hblank⟩

/-- Lines that divide into blocks may come one after the other, the file may end after
them, and each block gives its record. -/
theorem addAll_of_divides (path : Path) (ended : List (List (Numbered Line)))
    {ls : List (Numbered Line)} {ps : List Paragraph} (h : Divides ls ps) :
    (⟨ended, []⟩ : Layout).Accepts ls ∧
      endFault? ((⟨ended, []⟩ : Layout).addAll ls).current = none ∧
      ((⟨ended, []⟩ : Layout).addAll ls).records path
        = ended.filterMap (Record.ofBlock? path)
          ++ ps.filterMap fun p => Record.ofBlock? path p.lines := by
  induction h generalizing ended with
  | none => exact ⟨trivial, rfl, List.filterMap_append⟩
  | @last p hp =>
      obtain ⟨horderly, -, hend⟩ := Paragraph.orderly_lines hp
      obtain ⟨haccepts, hadd⟩ := accepts_of_orderly ended horderly
      refine ⟨haccepts, by rw [hadd]; exact hend, ?_⟩
      rw [hadd, records, blocks, List.filterMap_append]
      rfl
  | @cons p n ls ps hp _ ih =>
      obtain ⟨horderly, hne, hend⟩ := Paragraph.orderly_lines hp
      obtain ⟨haccepts, hadd⟩ := accepts_of_orderly ended horderly
      have hblank : fault? p.lines .blank = none := by rw [fault?, if_neg hne, hend]
      obtain ⟨haccepts', hend', hrecords⟩ := ih (ended ++ [p.lines])
      rw [accepts_append, addAll_append, hadd]
      refine ⟨⟨haccepts, hblank, haccepts'⟩, hend', hrecords.trans ?_⟩
      -- The block has gone from the first of the remaining ones to the last of the ended.
      rw [List.filterMap_append, List.append_assoc]
      cases hrecord : Record.ofBlock? path p.lines <;> simp [hrecord]

/-- Lines that may come after those of the block in hand and end the file divide, together
with these, into blocks. The block in hand is part of the statement so that the induction
over the lines can go on inside a block. -/
theorem exists_divides {y : Layout} {ls : List (Numbered Line)} (h : Orderly y.current)
    (hls : y.Accepts ls) (hend : endFault? (y.addAll ls).current = none) :
    ∃ ps, Divides (y.current ++ ls) ps := by
  induction ls generalizing y with
  | nil =>
      rw [List.append_nil]
      by_cases hne : y.current = []
      · rw [hne]
        exact ⟨[], .none⟩
      · obtain ⟨p, hp, hlines⟩ := Paragraph.exists_valid h hne hend
        rw [← hlines]
        exact ⟨[p], .last hp⟩
  | cons l ls ih =>
      obtain ⟨hfault, hls⟩ := hls
      have ih := ih (orderly_add h hfault) hls hend
      -- A blank line ends the block in hand as a tree, and any other line goes on with it.
      by_cases hblank : l.item = .blank
      · rw [add_blank hblank] at ih
        obtain ⟨ps, hps⟩ := ih
        rw [hblank, fault?] at hfault
        by_cases hne : y.current = []
        · rw [if_pos hne] at hfault
          cases hfault
        · rw [if_neg hne] at hfault
          obtain ⟨p, hp, hlines⟩ := Paragraph.exists_valid h hne hfault
          obtain ⟨n, item⟩ := l
          obtain rfl : item = .blank := hblank
          rw [← hlines]
          exact ⟨p :: ps, .cons hp hps⟩
      · rw [add_of_ne hblank] at ih
        rwa [List.append_cons]

end Layout

namespace Grammar

/-- Lines that divide into blocks are a word of the language of files. The cases of
`Divides` are the three parts of `file_eq`. -/
theorem kinds_mem_file_of_divides {ls : List (Numbered Line)} {ps : List Paragraph}
    (h : Divides ls ps) : Paragraph.kinds ls ∈ file := by
  induction h with
  | none =>
      rw [file_eq]
      exact Or.inl (Or.inl rfl)
  | last hp =>
      rw [file_eq]
      exact Or.inl (Or.inr (Paragraph.kinds_lines_mem_block hp))
  | @cons p n ls ps hp _ ih =>
      rw [file_eq, Paragraph.kinds_append]
      refine Or.inr ?_
      -- The blank line goes with the block in front of it, as in `file_eq`.
      rw [show Paragraph.kinds (⟨n, .blank⟩ :: ls) = [.blank] ++ Paragraph.kinds ls from rfl,
        ← List.append_assoc]
      exact Language.append_mem_mul
        (Language.append_mem_mul (Paragraph.kinds_lines_mem_block hp) rfl) ih

/-- Lines whose kinds are a block of the grammar are those of a tree. The lines are cut
where the grammar cuts their kinds. -/
theorem exists_valid_of_kinds_mem_block {b : List (Numbered Line)}
    (h : Paragraph.kinds b ∈ block) : ∃ p : Paragraph, p.Valid ∧ p.lines = b := by
  rcases (Language.mem_add _ _ _).1 h with hcomments | hrecord
  · exact ⟨.comments b, hcomments, rfl⟩
  · obtain ⟨u, hu, v, hv, huv⟩ := Language.mem_mul.1 hrecord
    obtain ⟨c, d, rfl, rfl, rfl⟩ := List.map_eq_append_iff.1 huv.symm
    exact ⟨.record c d, ⟨hu, hv⟩, rfl⟩

/-- Lines whose kinds are a word of the language of files divide into blocks. The induction
goes over the repetition in `file`, one block with its blank line at a time. -/
theorem exists_divides_of_kinds_mem_file {ls : List (Numbered Line)}
    (h : Paragraph.kinds ls ∈ file) : ∃ ps, Divides ls ps := by
  obtain ⟨u, hu, v, hv, huv⟩ := Language.mem_mul.1 h
  obtain ⟨pieces, rfl, hpieces⟩ := Language.mem_kstar.1 hu
  -- Each piece is a block with its blank line, and `v` is what the last blank line leaves.
  clear h hu
  induction pieces generalizing ls with
  | nil =>
      rcases (Language.mem_add _ _ _).1 hv with hnone | hlast
      · have hls : ls = [] := by
          rw [(Language.mem_one v).1 hnone] at huv
          exact List.map_eq_nil_iff.1 huv.symm
        rw [hls]
        exact ⟨[], .none⟩
      · obtain ⟨p, hp, hlines⟩ := exists_valid_of_kinds_mem_block (b := ls) (huv ▸ hlast)
        rw [← hlines]
        exact ⟨[p], .last hp⟩
  | cons piece pieces ih =>
      rw [List.flatten_cons, List.append_assoc] at huv
      obtain ⟨ls₁, ls₂, rfl, hpiece, hrest⟩ := List.map_eq_append_iff.1 huv.symm
      obtain ⟨ps, hps⟩ := ih (fun q hq => hpieces q (List.mem_cons_of_mem _ hq)) hrest.symm
      -- The first piece takes the first lines, of which the last is the blank one.
      obtain ⟨w, hw, x, hx, hwx⟩ := Language.mem_mul.1 (hpieces piece List.mem_cons_self)
      rw [mem_one] at hx
      rw [hx, ← hpiece] at hwx
      obtain ⟨b, last, rfl, rfl, hlast⟩ := List.map_eq_append_iff.1 hwx.symm
      obtain ⟨p, hp, hlines⟩ := exists_valid_of_kinds_mem_block hw
      obtain ⟨⟨n, l⟩, rfl, hl⟩ := List.map_eq_singleton_iff.1 hlast
      have hblank : l = .blank := by cases l <;> first | rfl | cases hl
      rw [hblank, ← hlines, List.append_assoc]
      exact ⟨p :: ps, .cons hp hps⟩

/-- The language of files, in terms of lines that divide into blocks. On the one side there
are words, and on the other the lines with all that they hold. -/
theorem mem_file_iff {ls : List (Numbered Line)} :
    Paragraph.kinds ls ∈ file ↔ ∃ ps, Divides ls ps :=
  ⟨exists_divides_of_kinds_mem_file, fun h => kinds_mem_file_of_divides h.choose_spec⟩

end Grammar

/-- The kinds of numbered lines do not depend on the numbers. They are the kinds of the
texts, one by one. -/
theorem Paragraph.kinds_ofTexts (count : Nat) (ts : List Text) :
    Paragraph.kinds (Line.ofTexts count ts) = ts.map fun t => (Line.ofText t).kind := by
  have hitems := congrArg (List.map Line.kind) (Line.map_item_ofTexts count ts)
  rwa [List.map_map, List.map_map] at hitems

/-- The word of a text is that of its numbered lines, which is what reading goes over. With
it the grammar, which is about texts, meets the layout. -/
theorem Text.kinds_eq (t : Text) : t.kinds = Paragraph.kinds (Line.ofTexts 0 t.lines) :=
  (Paragraph.kinds_ofTexts 0 t.lines).symm

namespace Record

/-- A file that divides into blocks can be read, and the records are those of its blocks in
their order. However the file divides, the records are the same. -/
theorem parse_of_divides {path : Path} {t : Text} {ps : List Paragraph}
    (h : Divides (Line.ofTexts 0 t.lines) ps) :
    Record.parse path t
      = .ok (ps.filterMap fun p => Record.ofBlock? path p.lines) := by
  obtain ⟨haccepts, hend, hrecords⟩ := Layout.addAll_of_divides path [] h
  have hparse : Record.parse path t = _ := parse_of_accepts haccepts hend
  rw [hparse]
  exact congrArg _ hrecords

/-- A file that can be read divides into blocks. Its layout is orderly, and each block of it
may end. -/
theorem exists_divides_of_parse_eq_ok {path : Path} {t : Text} {rs : List Record}
    (h : Record.parse path t = .ok rs) : ∃ ps, Divides (Line.ofTexts 0 t.lines) ps := by
  obtain ⟨haccepts, hend, -⟩ := parse_eq_ok_iff.1 h
  exact Layout.exists_divides (y := .empty) .nil haccepts hend

/-- A text can be read exactly if its lines are in the language of files. Which records it
has is said by `map_contents_ofBlock?` for each block. -/
theorem exists_parse_eq_ok_iff {path : Path} {t : Text} :
    (∃ rs, Record.parse path t = .ok rs) ↔ t.kinds ∈ Grammar.file := by
  rw [Text.kinds_eq, Grammar.mem_file_iff]
  constructor
  · intro ⟨rs, h⟩
    exact exists_divides_of_parse_eq_ok h
  · intro ⟨ps, h⟩
    exact ⟨_, parse_of_divides h⟩

/-- The record of a block holds the match keys and the properties of the block, with their
numbers and in their order. A block of comments has no record and no contents. -/
theorem map_contents_ofBlock? {path : Path} {p : Paragraph} (h : p.Valid) :
    (Record.ofBlock? path p.lines).map (fun r => (r.keys, r.properties)) = p.contents? := by
  cases p with
  | comments ls =>
      have hkeys := Paragraph.keys_eq_nil_of_comments (Grammar.mem_comments_iff.1 h).2
      rw [Paragraph.lines, ofBlock?_of_keys_eq_nil hkeys]
      rfl
  | record c d =>
      obtain ⟨k, ks, hkeys⟩ :=
        List.exists_cons_of_ne_nil (Paragraph.keys_append_ne_nil h.1 d)
      rw [Paragraph.lines, ofBlock?_of_keys_eq_cons hkeys, Paragraph.contents?, hkeys]
      rfl

/-- Reading accepts exactly the language of files. However the lines of an accepted file
divide into blocks, there is one record for each block that is no comment, in the same
order and with the match keys and properties of that block. -/
theorem parse_accepts_file (path : Path) (t : Text) :
    ((∃ rs, Record.parse path t = .ok rs) ↔ t.kinds ∈ Grammar.file) ∧
      ∀ rs, Record.parse path t = .ok rs →
        (∃ ps, Divides (Line.ofTexts 0 t.lines) ps) ∧
        ∀ ps, Divides (Line.ofTexts 0 t.lines) ps →
          rs.map (fun r => (r.keys, r.properties)) = ps.filterMap Paragraph.contents? := by
  refine ⟨exists_parse_eq_ok_iff, fun rs h => ?_⟩
  refine ⟨exists_divides_of_parse_eq_ok h, fun ps hps => ?_⟩
  rw [parse_of_divides hps, Except.ok.injEq] at h
  rw [← h, List.map_filterMap]
  exact List.filterMap_congr fun p hp => map_contents_ofBlock? (hps.valid p hp)

end Record

end Hwdb
