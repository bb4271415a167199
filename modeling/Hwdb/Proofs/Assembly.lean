import Hwdb.Proofs.Layout

/-!
# `Hwdb.Proofs.Assembly`: an assembly is a function of the lines it has taken

What an assembly remembers of its block in hand can be computed from the lines of that
block: `Block.ofLines`. Together with the records of the blocks before, this is
`Assembly.ofLayout`. A step of the assembly is a step of the layout (`feed_ofLayout`), and
the end of the file is `finish_ofLayout`.

So a whole run needs no more thought about assemblies. `Record.parse_cases` gives the three
outcomes of reading a file in terms of layouts.
-/

set_option autoImplicit false

namespace Hwdb

open Layout (Orderly fault? endFault? hasBody)

/-- What an assembly remembers of the lines of a block. -/
def Block.ofLines (b : List (Numbered Line)) : Block :=
  match Layout.keys b with
  | [] => if b = [] then .empty else .comments
  | k :: ks =>
      if hasBody b then .body k.line (k :: ks) (Layout.properties b)
      else .header k.line (k :: ks)

/-- The record that a block gives, if it has match keys. -/
def Record.ofBlock? (path : Path) (b : List (Numbered Line)) : Option Record :=
  match Layout.keys b with
  | [] => none
  | k :: ks =>
      some { path, line := k.line, keys := k :: ks, properties := Layout.properties b }

/-- Lines without a match key are remembered as comments, whichever lines they are. An empty
block is told apart from them, because a second blank line is a fault. -/
theorem Block.ofLines_of_keys_eq_nil {b : List (Numbered Line)}
    (hkeys : Layout.keys b = []) (hb : b ≠ []) : Block.ofLines b = .comments := by
  rw [Block.ofLines, hkeys]
  exact if_neg hb

/-- Match keys and no line of the properties yet: the block is still in its header. The
number that goes with it is that of the first match key, where the record will stand. -/
theorem Block.ofLines_of_hasBody_eq_false {b : List (Numbered Line)}
    {k : Numbered MatchKey} {ks : List (Numbered MatchKey)}
    (hkeys : Layout.keys b = k :: ks) (hbody : hasBody b = false) :
    Block.ofLines b = .header k.line (k :: ks) := by
  rw [Block.ofLines, hkeys]
  exact if_neg (by simp [hbody])

/-- Once a line of the properties has come, the match keys are settled, and the properties
so far are remembered beside them. -/
theorem Block.ofLines_of_hasBody {b : List (Numbered Line)}
    {k : Numbered MatchKey} {ks : List (Numbered MatchKey)}
    (hkeys : Layout.keys b = k :: ks) (hbody : hasBody b = true) :
    Block.ofLines b = .body k.line (k :: ks) (Layout.properties b) := by
  rw [Block.ofLines, hkeys]
  exact if_pos hbody

/-- A block without match keys gives no record. Such a block has comments only, or no line
at all. -/
theorem Record.ofBlock?_of_keys_eq_nil {path : Path} {b : List (Numbered Line)}
    (hkeys : Layout.keys b = []) : Record.ofBlock? path b = none := by
  rw [Record.ofBlock?, hkeys]

/-- A block with match keys gives a record, which stands at the line of the first one.
Whether it has properties is not asked here, as a block without them may not end. -/
theorem Record.ofBlock?_of_keys_eq_cons {path : Path} {b : List (Numbered Line)}
    {k : Numbered MatchKey} {ks : List (Numbered MatchKey)}
    (hkeys : Layout.keys b = k :: ks) :
    Record.ofBlock? path b
      = some { path, line := k.line, keys := k :: ks,
               properties := Layout.properties b } := by
  rw [Record.ofBlock?, hkeys]

namespace Layout

/-- The records of all blocks. -/
def records (path : Path) (y : Layout) : List Record :=
  y.blocks.filterMap (Record.ofBlock? path)

end Layout

namespace Assembly

/-- The assembly that has taken the lines of a layout. -/
def ofLayout (path : Path) (y : Layout) : Assembly :=
  { path, closed := y.ended.filterMap (Record.ofBlock? path), block := .ofLines y.current }

/-- What the assembly is after a blank line: the record of the block in hand is closed, if
there is one. The block in hand is empty then, whatever it was. -/
theorem ofLayout_add_blank {path : Path} {y : Layout} {n : Nat} :
    ofLayout path (y.add ⟨n, .blank⟩)
      = { path
          closed := y.ended.filterMap (Record.ofBlock? path)
            ++ (Record.ofBlock? path y.current).toList
          block := .empty } := by
  have hlast : [y.current].filterMap (Record.ofBlock? path)
      = (Record.ofBlock? path y.current).toList := by
    cases h : Record.ofBlock? path y.current <;> simp [h]
  rw [Layout.add_blank rfl, ofLayout, List.filterMap_append, hlast]
  rfl

/-- What the assembly is after any other line: no record is closed, and the block in hand
has the line in addition. -/
theorem ofLayout_add_of_ne {path : Path} {y : Layout} {n : Nat} {l : Line}
    (h : l ≠ .blank) :
    ofLayout path (y.add ⟨n, l⟩)
      = { path
          closed := y.ended.filterMap (Record.ofBlock? path)
          block := .ofLines (y.current ++ [⟨n, l⟩]) } := by
  rw [Layout.add_of_ne h, ofLayout]

/-- What a step does to the assembly that has taken the lines of a layout: either the line
has a fault, and the assembly stays as it is, or it has taken the line, too. -/
def Follows (path : Path) (y : Layout) (n : Nat) (l : Line) : Prop :=
  feed n l (ofLayout path y)
    = match fault? y.current l with
      | some f => .error f (ofLayout path y)
      | none => .ok () (ofLayout path (y.add ⟨n, l⟩))

/-- The first of the three cases of `feed_ofLayout`: the block in hand has lines, but no
match key. A comment changes nothing, a match key begins a header, and a blank line ends the
block without a record. -/
theorem follows_of_comments {path : Path} {y : Layout} (hkeys : Layout.keys y.current = [])
    (hbody : hasBody y.current = false) (hne : y.current ≠ []) (n : Nat) (l : Line) :
    Follows path y n l := by
  have hlayout : ofLayout path y
      = ⟨path, y.ended.filterMap (Record.ofBlock? path), .comments⟩ := by
    rw [ofLayout, Block.ofLines_of_keys_eq_nil hkeys hne]
  -- The assembly only knows that there are comments, and so meets every line in one state.
  unfold Follows
  cases l with
  | blank =>
      have hfault : fault? y.current .blank = none := by
        rw [fault?, if_neg hne]
        exact if_neg fun hend => hend.1 hkeys
      rw [ofLayout_add_blank, Record.ofBlock?_of_keys_eq_nil hkeys, hlayout, hfault,
        Option.toList_none, List.append_nil]
      rfl
  | comment =>
      have hnext : Block.ofLines (y.current ++ [⟨n, .comment⟩]) = .comments :=
        Block.ofLines_of_keys_eq_nil (by rw [Layout.keys_concat, hkeys]; rfl) (by simp)
      rw [ofLayout_add_of_ne (by simp), hnext, hlayout]
      rfl
  | key k =>
      have hkeysNext : Layout.keys (y.current ++ [⟨n, .key k⟩]) = [⟨n, k⟩] := by
        rw [Layout.keys_concat, hkeys]
        rfl
      have hnext : Block.ofLines (y.current ++ [⟨n, .key k⟩]) = .header n [⟨n, k⟩] :=
        Block.ofLines_of_hasBody_eq_false hkeysNext (by rw [Layout.hasBody_concat, hbody]; rfl)
      have hfault : fault? y.current (.key k) = none := by simp [fault?, hbody]
      rw [ofLayout_add_of_ne (by simp), hnext, hlayout, hfault]
      rfl
  | _ =>
      -- All other lines need a match key before them.
      rw [hlayout]
      simp only [fault?, hkeys, ↓reduceIte]
      rfl

/-- The second case: the block in hand has match keys and nothing of its properties. More
match keys and comments may come, and a property or an indented comment begins the body. A
blank line has come too soon. -/
theorem follows_of_header {path : Path} {y : Layout} {k₀ : Numbered MatchKey}
    {ks : List (Numbered MatchKey)} (hkeys : Layout.keys y.current = k₀ :: ks)
    (hbody : hasBody y.current = false) (n : Nat) (l : Line) : Follows path y n l := by
  -- What the assembly forgets here, it can restore: no property has come yet.
  have hproperties := Layout.properties_eq_nil_of_hasBody_eq_false hbody
  have hne : y.current ≠ [] := by
    intro hnil
    rw [hnil] at hkeys
    cases hkeys
  have hlayout : ofLayout path y
      = ⟨path, y.ended.filterMap (Record.ofBlock? path), .header k₀.line (k₀ :: ks)⟩ := by
    rw [ofLayout, Block.ofLines_of_hasBody_eq_false hkeys hbody]
  -- A line without a match key leaves the match keys as they are.
  have hkeysNext : ∀ l : Line, l.key? = none →
      Layout.keys (y.current ++ [⟨n, l⟩]) = k₀ :: ks := fun l hl => by
    rw [Layout.keys_concat, hkeys, hl]
    exact List.append_nil _
  unfold Follows
  cases l with
  | blank =>
      have hfault : fault? y.current .blank = some .missingProperties := by
        simp [fault?, endFault?, hkeys, hproperties, hne]
      rw [hlayout, hfault]
      rfl
  | comment =>
      have hnext : Block.ofLines (y.current ++ [⟨n, .comment⟩])
          = .header k₀.line (k₀ :: ks) :=
        Block.ofLines_of_hasBody_eq_false (hkeysNext _ rfl)
          (by rw [Layout.hasBody_concat, hbody]; rfl)
      rw [ofLayout_add_of_ne (by simp), hnext, hlayout]
      rfl
  | key k =>
      have hnext : Block.ofLines (y.current ++ [⟨n, .key k⟩])
          = .header k₀.line (k₀ :: ks ++ [⟨n, k⟩]) :=
        Block.ofLines_of_hasBody_eq_false (by rw [Layout.keys_concat, hkeys]; rfl)
          (by rw [Layout.hasBody_concat, hbody]; rfl)
      have hfault : fault? y.current (.key k) = none := by simp [fault?, hbody]
      rw [ofLayout_add_of_ne (by simp), hnext, hlayout, hfault]
      rfl
  | indentedComment =>
      have hnext : Block.ofLines (y.current ++ [⟨n, .indentedComment⟩])
          = .body k₀.line (k₀ :: ks) [] := by
        rw [Block.ofLines_of_hasBody (hkeysNext _ rfl)
          (by rw [Layout.hasBody_concat, hbody]; rfl), Layout.properties_concat, hproperties]
        rfl
      have hfault : fault? y.current .indentedComment = none := by simp [fault?, hkeys]
      rw [ofLayout_add_of_ne (by simp), hnext, hlayout, hfault]
      rfl
  | property p =>
      have hnext : Block.ofLines (y.current ++ [⟨n, .property p⟩])
          = .body k₀.line (k₀ :: ks) [⟨n, p⟩] := by
        rw [Block.ofLines_of_hasBody (hkeysNext _ rfl)
          (by rw [Layout.hasBody_concat, hbody]; rfl), Layout.properties_concat, hproperties]
        rfl
      have hfault : fault? y.current (.property p) = none := by simp [fault?, hkeys]
      rw [ofLayout_add_of_ne (by simp), hnext, hlayout, hfault]
      rfl
  | malformedProperty t =>
      have hfault : fault? y.current (.malformedProperty t) = some (.malformedProperty t) := by
        simp [fault?, hkeys]
      rw [hlayout, hfault]
      rfl
  | unknown t =>
      rw [hlayout]
      rfl

/-- The third case: the properties of the block in hand have begun. Match keys may not come
any more. A blank line closes the record, unless it has indented comments and no property. -/
theorem follows_of_body {path : Path} {y : Layout} {k₀ : Numbered MatchKey}
    {ks : List (Numbered MatchKey)} (hkeys : Layout.keys y.current = k₀ :: ks)
    (hbody : hasBody y.current = true) (n : Nat) (l : Line) : Follows path y n l := by
  have hne : y.current ≠ [] := by
    intro hnil
    rw [hnil] at hkeys
    cases hkeys
  have hlayout : ofLayout path y
      = ⟨path, y.ended.filterMap (Record.ofBlock? path),
          .body k₀.line (k₀ :: ks) (Layout.properties y.current)⟩ := by
    rw [ofLayout, Block.ofLines_of_hasBody hkeys hbody]
  -- No line that may come now changes the match keys, and a property goes to the end.
  have hnext : ∀ l : Line, l.key? = none → Block.ofLines (y.current ++ [⟨n, l⟩])
      = .body k₀.line (k₀ :: ks)
          (Layout.properties y.current ++ (l.property?.map (Numbered.mk n)).toList) := by
    intro l hl
    have hkeysNext : Layout.keys (y.current ++ [⟨n, l⟩]) = k₀ :: ks := by
      rw [Layout.keys_concat, hkeys, hl]
      exact List.append_nil _
    rw [Block.ofLines_of_hasBody hkeysNext (by rw [Layout.hasBody_concat, hbody]; rfl),
      Layout.properties_concat]
  unfold Follows
  cases l with
  | blank =>
      rw [ofLayout_add_blank, Record.ofBlock?_of_keys_eq_cons hkeys, hlayout]
      cases hproperties : Layout.properties y.current with
      | nil =>
          have hfault : fault? y.current .blank = some .missingProperties := by
            simp [fault?, endFault?, hkeys, hproperties, hne]
          rw [hfault]
          rfl
      | cons p ps =>
          have hfault : fault? y.current .blank = none := by
            simp [fault?, endFault?, hproperties, hne]
          rw [hfault]
          rfl
  | key k =>
      have hfault : fault? y.current (.key k) = some (.missingSeparator k.text) := by
        simp [fault?, hbody]
      rw [hlayout, hfault]
      rfl
  | unknown t =>
      rw [hlayout]
      rfl
  | malformedProperty t =>
      have hfault : fault? y.current (.malformedProperty t) = some (.malformedProperty t) := by
        simp [fault?, hkeys]
      rw [hlayout, hfault]
      rfl
  | property p =>
      have hfault : fault? y.current (.property p) = none := by simp [fault?, hkeys]
      rw [ofLayout_add_of_ne (by simp), hnext _ rfl, hlayout, hfault]
      rfl
  | _ =>
      rw [ofLayout_add_of_ne (by simp), hnext _ rfl, hlayout]
      simp only [fault?, hkeys, reduceCtorEq, ↓reduceIte, Line.property?, Option.map_none,
        Option.toList_none, List.append_nil]
      rfl

/-- A step of the assembly is a step of the layout, with the same fault or none. The block
has to be orderly, which `orderly_addAll` says of every block that a run comes to. -/
theorem feed_ofLayout (path : Path) {y : Layout} (h : Orderly y.current) (n : Nat)
    (l : Line) : Follows path y n l := by
  -- The cases are the states of an assembly. Without a match key an orderly block has no
  -- property either, which an assembly could not tell.
  cases hkeys : Layout.keys y.current with
  | nil =>
      by_cases hne : y.current = []
      · -- With an empty block both sides compute, for each kind of line.
        obtain ⟨ended, b⟩ := y
        obtain rfl : b = [] := hne
        cases l with
        | blank => rfl
        | _ => rfl
      · exact follows_of_comments hkeys (h.hasBody_eq_false hkeys) hne n l
  | cons k ks =>
      cases hbody : hasBody y.current with
      | false => exact follows_of_header hkeys hbody n l
      | true => exact follows_of_body hkeys hbody n l

/-- The end of the file: the block in hand may give a last record, or it has match keys
without properties and that is the fault. Comments at the end stay in hand. -/
theorem finish_ofLayout (path : Path) {y : Layout} (h : Orderly y.current) :
    finish (ofLayout path y)
      = match endFault? y.current with
        | some f => .error f (ofLayout path y)
        | none => .ok () ⟨path, y.records path,
            if hasBody y.current then .empty else .ofLines y.current⟩ := by
  have hrecords : y.records path
      = y.ended.filterMap (Record.ofBlock? path)
        ++ (Record.ofBlock? path y.current).toList := by
    rw [Layout.records, Layout.blocks, List.filterMap_append]
    cases hlast : Record.ofBlock? path y.current <;> simp [hlast]
  -- A block without match keys leaves no record and no fault, whether it is empty or not.
  cases hkeys : Layout.keys y.current with
  | nil =>
      have hbody := h.hasBody_eq_false hkeys
      have hend : endFault? y.current = none := by simp [endFault?, hkeys]
      rw [hrecords, Record.ofBlock?_of_keys_eq_nil hkeys, hend, hbody, Option.toList_none,
        List.append_nil]
      by_cases hne : y.current = []
      · rw [ofLayout, hne]
        rfl
      · rw [ofLayout, Block.ofLines_of_keys_eq_nil hkeys hne]
        rfl
  | cons k ks =>
      cases hbody : hasBody y.current with
      | false =>
          have hproperties := Layout.properties_eq_nil_of_hasBody_eq_false hbody
          have hend : endFault? y.current = some .missingProperties := by
            simp [endFault?, hkeys, hproperties]
          rw [hend, ofLayout, Block.ofLines_of_hasBody_eq_false hkeys hbody]
          rfl
      | true =>
          rw [hrecords, Record.ofBlock?_of_keys_eq_cons hkeys, ofLayout,
            Block.ofLines_of_hasBody hkeys hbody]
          cases hproperties : Layout.properties y.current with
          | nil =>
              have hend : endFault? y.current = some .missingProperties := by
                simp [endFault?, hkeys, hproperties]
              rw [hend]
              rfl
          | cons p ps =>
              have hend : endFault? y.current = none := by simp [endFault?, hproperties]
              rw [hend]
              rfl

/-! ### Runs -/

/-- A run takes its first line and goes on with the assembly that has it. A fault is given
the number of the line and how many records have been closed before it. -/
theorem feedLines_cons (count : Nat) (t : Text) (ts : List Text) (a : Assembly) :
    feedLines count (t :: ts) a
      = match feed (count + 1) (Line.ofText t) a with
        | .ok _ a => feedLines (count + 1) ts a
        | .error f a => .error ⟨count + 1, f, a.closed.length⟩ a := by
  show EStateM.bind (located (count + 1) (feed (count + 1) (Line.ofText t)))
    (fun _ => feedLines (count + 1) ts) a = _
  unfold EStateM.bind located
  cases feed (count + 1) (Line.ofText t) a <;> rfl

/-- Lines that may all stand where they stand lead to the assembly of their layout, from the
assembly of any orderly layout. -/
theorem feedLines_of_accepts (path : Path) {y : Layout} (h : Orderly y.current) {count : Nat}
    {ts : List Text} (hts : y.Accepts (Line.ofTexts count ts)) :
    feedLines count ts (ofLayout path y)
      = .ok () (ofLayout path (y.addAll (Line.ofTexts count ts))) := by
  -- The layout stays orderly from line to line, so that `feed_ofLayout` applies again.
  induction ts generalizing y count with
  | nil => rfl
  | cons t ts ih =>
      have hfeed := feed_ofLayout path h (count + 1) (Line.ofText t)
      rw [Follows, hts.1] at hfeed
      rw [feedLines_cons, hfeed]
      exact ih (Layout.orderly_add h hts.1) hts.2

/-- A line with a fault ends the run there, whatever follows it. The error has the number of
the line and counts the records that were closed before it. -/
theorem feedLines_of_fault (path : Path) {y : Layout} (h : Orderly y.current) {count : Nat}
    {before : List Text} (after : List Text) {t : Text} {f : Fault}
    (hbefore : y.Accepts (Line.ofTexts count before))
    (hfault : fault? (y.addAll (Line.ofTexts count before)).current (Line.ofText t)
      = some f) :
    feedLines count (before ++ t :: after) (ofLayout path y)
      = .error
          ⟨count + before.length + 1, f,
            ((y.addAll (Line.ofTexts count before)).ended.filterMap
              (Record.ofBlock? path)).length⟩
          (ofLayout path (y.addAll (Line.ofTexts count before))) := by
  -- On the lines before the fault: each is taken, and the first one left is the fault.
  induction before generalizing y count with
  | nil =>
      have hfeed := feed_ofLayout path h (count + 1) (Line.ofText t)
      have hfault' : fault? y.current (Line.ofText t) = some f := hfault
      rw [Follows, hfault'] at hfeed
      rw [List.nil_append, feedLines_cons, hfeed]
      rfl
  | cons s before ih =>
      have hfeed := feed_ofLayout path h (count + 1) (Line.ofText s)
      rw [Follows, hbefore.1] at hfeed
      rw [List.cons_append, feedLines_cons, hfeed]
      have hrun := ih (Layout.orderly_add h hbefore.1) hbefore.2 hfault
      rw [List.length_cons, show count + (before.length + 1) + 1
        = count + 1 + before.length + 1 from by omega]
      exact hrun

/-- Reading a text takes its lines and then its end. A fault at the end is given the number
of the last line. -/
theorem feedText_eq (t : Text) (a : Assembly) :
    feedText t a
      = match feedLines 0 t.lines a with
        | .ok _ a => located t.lines.length finish a
        | .error e a => .error e a := by
  show EStateM.bind (feedLines 0 t.lines) (fun _ => located t.lines.length finish) a = _
  unfold EStateM.bind
  cases feedLines 0 t.lines a <;> rfl

end Assembly

namespace Record

open Layout (AcceptsTexts)

/-- A file whose lines may stand where they stand, and which may end, gives the records of
its blocks, in the order of the blocks. -/
theorem parse_of_accepts {path : Path} {t : Text} (h : AcceptsTexts t.lines)
    (hend : endFault? (Layout.ofTexts t.lines).current = none) :
    Record.parse path t = .ok ((Layout.ofTexts t.lines).records path) := by
  have hlines := Assembly.feedLines_of_accepts path .nil h
  have hfinish := Assembly.finish_ofLayout path (Layout.orderly_addAll .nil h)
  -- `hend` in the words of the run, which starts from the empty layout.
  have hend' : endFault? (Layout.empty.addAll (Line.ofTexts 0 t.lines)).current = none := hend
  rw [hend'] at hfinish
  have hstart : Assembly.start path = Assembly.ofLayout path Layout.empty := rfl
  rw [Record.parse, Assembly.feedText_eq, hstart, hlines]
  simp only [Assembly.located, hfinish]
  rfl

/-- A file that may not end where it ends has its fault on its last line. The records of the
blocks that had ended are counted. -/
theorem parse_of_endFault {path : Path} {t : Text} {f : Fault} (h : AcceptsTexts t.lines)
    (hend : endFault? (Layout.ofTexts t.lines).current = some f) :
    Record.parse path t
      = .error ⟨t.lines.length, f,
          ((Layout.ofTexts t.lines).ended.filterMap (Record.ofBlock? path)).length⟩ := by
  have hlines := Assembly.feedLines_of_accepts path .nil h
  have hfinish := Assembly.finish_ofLayout path (Layout.orderly_addAll .nil h)
  have hend' : endFault? (Layout.empty.addAll (Line.ofTexts 0 t.lines)).current = some f :=
    hend
  rw [hend'] at hfinish
  have hstart : Assembly.start path = Assembly.ofLayout path Layout.empty := rfl
  rw [Record.parse, Assembly.feedText_eq, hstart, hlines]
  simp only [Assembly.located, hfinish]
  rfl

/-- A file is read up to the first line that may not stand where it stands. The lines after
it are not looked at, so they are free here. -/
theorem parse_of_fault {path : Path} {t : Text} {before after : List Text} {s : Text}
    {f : Fault} (hlines : t.lines = before ++ s :: after) (h : AcceptsTexts before)
    (hfault : fault? (Layout.ofTexts before).current (Line.ofText s) = some f) :
    Record.parse path t
      = .error ⟨before.length + 1, f,
          ((Layout.ofTexts before).ended.filterMap (Record.ofBlock? path)).length⟩ := by
  have hrun := Assembly.feedLines_of_fault path .nil after h hfault
  have hstart : Assembly.start path = Assembly.ofLayout path Layout.empty := rfl
  rw [Record.parse, Assembly.feedText_eq, hlines, hstart, hrun, Nat.zero_add]
  rfl

/-- The outcome of reading a file, in terms of its lines: it is accepted, or it ends too
soon, or it has a first line with a fault. The cases exclude each other, and what is proved
about reading a file goes through them. -/
theorem parse_cases (path : Path) (t : Text) :
    (AcceptsTexts t.lines ∧ endFault? (Layout.ofTexts t.lines).current = none ∧
      Record.parse path t = .ok ((Layout.ofTexts t.lines).records path)) ∨
    (∃ f, AcceptsTexts t.lines ∧ endFault? (Layout.ofTexts t.lines).current = some f ∧
      Record.parse path t = .error ⟨t.lines.length, f,
        ((Layout.ofTexts t.lines).ended.filterMap (Record.ofBlock? path)).length⟩) ∨
    ∃ before s after f, t.lines = before ++ s :: after ∧ AcceptsTexts before ∧
      fault? (Layout.ofTexts before).current (Line.ofText s) = some f ∧
      Record.parse path t = .error ⟨before.length + 1, f,
        ((Layout.ofTexts before).ended.filterMap (Record.ofBlock? path)).length⟩ := by
  rcases Layout.accepts_or_fault .empty 0 t.lines with h | hfirst
  · cases hend : endFault? (Layout.ofTexts t.lines).current with
    | none => exact Or.inl ⟨h, rfl, parse_of_accepts h hend⟩
    | some f => exact Or.inr (Or.inl ⟨f, h, rfl, parse_of_endFault h hend⟩)
  · obtain ⟨before, s, after, f, hlines, h, hfault⟩ := hfirst
    exact Or.inr (Or.inr ⟨before, s, after, f, hlines, h, hfault,
      parse_of_fault hlines h hfault⟩)

/-- The accepted files and their records. This is the first case of `parse_cases`, with the
other two excluded. -/
theorem parse_eq_ok_iff {path : Path} {t : Text} {rs : List Record} :
    Record.parse path t = .ok rs
      ↔ AcceptsTexts t.lines ∧ endFault? (Layout.ofTexts t.lines).current = none ∧
        rs = (Layout.ofTexts t.lines).records path := by
  refine ⟨fun hok => ?_, fun h => ?_⟩
  · -- The two other outcomes are errors.
    rcases parse_cases path t with ⟨h, hend, hparse⟩ | ⟨f, -, -, hparse⟩
      | ⟨before, s, after, f, -, -, -, hparse⟩
    · rw [hparse, Except.ok.injEq] at hok
      exact ⟨h, hend, hok.symm⟩
    · rw [hparse] at hok
      cases hok
    · rw [hparse] at hok
      cases hok
  · rw [h.2.2]
    exact parse_of_accepts h.1 h.2.1

end Record

end Hwdb
