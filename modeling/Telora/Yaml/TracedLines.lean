import Telora.Yaml.LinePlaces
import Telora.Yaml.QuoteScans

/-!
# Outlines of documents

The reader of lines, followed step by step: where it reads a value, the outline of the value is
traced, expands to the node that was read, and adds the work that was counted.
-/

namespace Telora.Yaml

open Library

/-- What is known of the state between two lines. -/
structure Outliner.Traced (document : List Char) (state : Outliner) : Prop where
  lines : ∀ line ∈ state.remaining, line.StandsIn document
  ordered : Ordered state.remaining
  anchors : ∀ line ∈ state.remaining, AnchorsTraced document line.start state.anchors
  bounded : state.work ≤ maxAliasExpansions

/-- What is known while a line is read whose text is not among those that are left. -/
structure Outliner.Current (document : List Char) (line : Line) (state : Outliner) : Prop where
  traced : state.Traced document
  stands : line.StandsIn document
  ahead : ∀ other ∈ state.remaining, line.stop < other.start
  anchors : AnchorsTraced document line.start state.anchors

/-- A value that was read has a traced outline, which the state accounts for. -/
def Follows (document : List Char) (state : Outliner) (node : YamlNode) (reader : Reader)
    (result : Option (Written × Outliner)) : Prop :=
  ∃ value next, result = some (value, next) ∧ value.expand = node ∧ next.reader = reader ∧
    value.Traced document ∧ value.Whole ∧ next.Traced document ∧
    next.work = state.work + value.work

section States

variable {document : List Char} {state : Outliner} {line : Line} {rest : List Line}

theorem Outliner.Traced.suffix (h : state.Traced document) (hsuffix : rest <:+ state.remaining) :
    Outliner.Traced document { state with remaining := rest } where
  lines := fun line hmem => h.lines line (hsuffix.subset hmem)
  ordered := h.ordered.sublist hsuffix.sublist
  anchors := fun line hmem => h.anchors line (hsuffix.subset hmem)
  bounded := h.bounded

theorem Outliner.Traced.skipTrivia (h : state.Traced document) :
    state.skipTrivia.Traced document :=
  h.suffix (List.dropWhile_suffix _)

theorem Outliner.Current.skipTrivia (h : state.Current document line) :
    state.skipTrivia.Current document line where
  traced := h.traced.skipTrivia
  stands := h.stands
  ahead := fun other hmem => h.ahead other ((List.dropWhile_suffix _).subset hmem)
  anchors := h.anchors

/-- The next line is read with the lines behind it left. -/
theorem Outliner.Traced.current (h : state.Traced document)
    (hlines : state.remaining = line :: rest) :
    Outliner.Current document line { state with remaining := rest } where
  traced := h.suffix (hlines ▸ List.suffix_cons line rest)
  stands := h.lines line (hlines ▸ List.mem_cons_self)
  ahead := by
    have hordered := h.ordered
    rw [hlines] at hordered
    exact (List.pairwise_cons.mp hordered).1
  anchors := h.anchors line (hlines ▸ List.mem_cons_self)

theorem Outliner.skipTrivia_reader (state : Outliner) :
    state.skipTrivia.reader = state.reader.skipTrivia := rfl

@[simp] theorem Outliner.reader_remaining (state : Outliner) :
    state.reader.remaining = state.remaining := rfl

theorem Outliner.skipTrivia_skipTrivia (state : Outliner) :
    state.skipTrivia.skipTrivia = state.skipTrivia := by
  rw [skipTrivia, skipTrivia, List.dropWhile_idempotent]

/-- The next entry of a mapping without a pending one starts the next line. -/
theorem nextEntry_none {indent : Nat} {content : List Char} {reader next : Reader}
    (h : nextEntry indent none reader = some (line, content, next)) :
    ∃ rest, reader.remaining = line :: rest ∧ content = line.content ∧
      line.indent = indent ∧ next = { reader with remaining := rest } := by
  rw [nextEntry] at h
  split at h
  · cases h
  · next first rest hlines =>
      split at h
      · cases h
      · next hfirst =>
          cases h
          refine ⟨rest, hlines, rfl, ?_, rfl⟩
          simp only [ne_eq, Bool.or_eq_true, decide_eq_true_eq, not_or, not_not] at hfirst
          exact hfirst.1

end States

section Inline

variable {document : List Char} {source : Nat} {line : Line} {state : Outliner}

theorem trim_trim (text : List Char) : trim (trim text) = trim text := by
  cases hstart : trimStart text with
  | nil =>
      have hnil : trim text = [] := by
        rw [trim, hstart]
        rfl
      rw [hnil]
      rfl
  | cons c rest =>
      have hhead := List.head?_dropWhile_not isWhitespaceChar text
      have hsolid : StartsSolid (trimStart text) := by
        rw [hstart]
        rw [trimStart] at hstart
        rw [hstart] at hhead
        exact ⟨c, rest, rfl, hhead⟩
      have htrim := hsolid.trim.1
      rw [trim, hsolid.trimStart] at htrim
      rw [trim, trim, htrim.trimStart]
      exact List.rdropWhile_idempotent _ _

theorem byteLength_takeWhile_trim (text : List Char) :
    byteLength (text.takeWhile isWhitespaceChar) + byteLength (trim text) ≤ byteLength text := by
  obtain ⟨behind, hsplit⟩ := trim_split text
  have hlength := congrArg byteLength hsplit
  rw [byteLength_append, byteLength_append] at hlength
  omega

theorem stripComment_prefix (text : List Char) : stripComment text <+: text := by
  by_cases huncut : Uncut none none text
  · rw [stripComment, huncut.strip]
  · obtain ⟨front, back, hsplit, -, hstrip⟩ := exists_cut huncut
    have hstrip := hstrip []
    rw [List.append_nil] at hstrip
    rw [stripComment, hstrip, hsplit]
    exact List.prefix_append _ _

/-- The text of a value behind white space and without its comment. -/
theorem StandsAt.value {start : Nat} {text : List Char} (h : StandsAt document start text) :
    StandsAt document
      (start + byteLength ((stripComment text).takeWhile isWhitespaceChar))
      (Library.trim (stripComment text)) := by
  obtain ⟨comment, hcomment⟩ := stripComment_prefix text
  rw [← hcomment] at h
  exact h.left.trim

theorem byteLength_value_le (text : List Char) :
    byteLength (trim (stripComment text)) ≤ byteLength text := by
  have htrim := byteLength_takeWhile_trim (stripComment text)
  obtain ⟨comment, hcomment⟩ := stripComment_prefix text
  have hlength := congrArg byteLength hcomment
  rw [byteLength_append] at hlength
  omega

/-- The mark of a value on one line. -/
theorem inlineMark_stands (source : Nat) {offset : Nat} {skipped text : List Char}
    (h : StandsAt document (offset + byteLength skipped) text) :
    Mark.Stands document
      ⟨location source offset (offset + byteLength text), skipped, text, []⟩ where
  text := h
  stop := rfl

/-- An alias in block style is not too deep, and adds its nodes to the work. -/
theorem parseAlias_eq_ok {name text : List Char} {offset : Nat} {reader next : Reader}
    {node : YamlNode} (h : parseAlias source line name text offset reader = .ok (node, next)) :
    ∃ anchored, reader.anchors.lookup (String.ofList name) = some anchored ∧
      reader.aliasExpansionWork + anchored.nodeCount ≤ maxAliasExpansions ∧
      anchored.nodeDepth ≤ maxAliasDepth ∧
      node = anchored.setNodeLocation (location source offset (offset + byteLength text)) ∧
      next = { reader with
        aliasExpansionWork := reader.aliasExpansionWork + anchored.nodeCount } := by
  rw [parseAlias] at h
  split at h
  · cases h
  · split at h
    · cases h
    · next anchored hlookup =>
        simp only at h
        split at h
        · cases h
        · next hwork =>
            split at h
            · cases h
            · next hdepth =>
                cases h
                exact ⟨anchored, hlookup, Nat.not_lt.mp hwork, Nat.not_lt.mp hdepth, rfl, rfl⟩

theorem setNodeLocation_location (node : YamlNode) (location : Loc) :
    (node.setNodeLocation location).location = location := by
  cases node <;> rfl

/-- The parts of a text that names an anchor: the name, white space and the value behind it. -/
theorem anchor_split (anchor : List Char) :
    ∃ behind, anchor = anchor.takeWhile (fun c => !isWhitespaceChar c) ++
      ((anchor.drop (anchor.takeWhile fun c => !isWhitespaceChar c).length).takeWhile
          isWhitespaceChar ++
        (trim (anchor.drop (anchor.takeWhile fun c => !isWhitespaceChar c).length) ++ behind)) := by
  obtain ⟨behind, hsplit⟩ :=
    trim_split (anchor.drop (anchor.takeWhile fun c => !isWhitespaceChar c).length)
  refine ⟨behind, ?_⟩
  rw [← hsplit, drop_length_takeWhile]
  exact List.takeWhile_append_dropWhile.symm

/-- A value on one line has a traced outline, and starts on the line. -/
theorem exists_outlineInline {fuel : Nat} {text skipped : List Char} {offset : Nat}
    {node : YamlNode} {reader : Reader} (hcurrent : state.Current document line)
    (hplace : StandsAt document (offset + byteLength skipped) text) (hstart : line.start ≤ offset)
    (hstop : offset + byteLength text ≤ line.stop)
    (h : parseInlineWith source fuel line text offset state.reader = .ok (node, reader)) :
    Follows document state node reader (outlineInline source fuel line text offset skipped state) ∧
      node.location.start ≤ line.stop ∧ reader.remaining = state.remaining := by
  induction fuel generalizing text skipped offset state node reader with
  | zero =>
      rw [parseInlineWith.eq_def] at h
      cases h
  | succ fuel ih =>
      have hplace := hplace.value
      have hlength := byteLength_value_le text
      rw [Nat.add_assoc, ← byteLength_append] at hplace
      rw [parseInlineWith.eq_def] at h
      rw [outlineInline.eq_def]
      simp only at h ⊢
      generalize skipped ++ (stripComment text).takeWhile isWhitespaceChar = skipped at hplace ⊢
      generalize trim (stripComment text) = text at h hplace hlength ⊢
      have hmark := inlineMark_stands source hplace
      split at h
      · cases h
      split at h
      · next hstar =>
          obtain ⟨anchored, hlookup, hwork, hdepth, rfl, rfl⟩ := parseAlias_eq_ok h
          obtain ⟨target, htarget, rfl, hmem⟩ := exists_anchor hlookup
          rw [if_pos hstar, htarget]
          refine ⟨⟨.reference target false _, _, rfl, rfl, rfl,
            .reference hmark hstar (hcurrent.anchors _ hmem).1 (fun _ => hdepth)
              (fun h => by cases h), ⟨rfl, rfl⟩, ?_, rfl⟩, ?_, rfl⟩
          · exact ⟨hcurrent.traced.lines, hcurrent.traced.ordered, hcurrent.traced.anchors, hwork⟩
          · rw [setNodeLocation_location]
            exact Nat.le_trans (Nat.le_add_right offset _) hstop
      rw [if_neg ‹_›]
      split at h
      · next hampersand =>
          rw [if_pos hampersand]
          have htext := eq_cons_tail hampersand
          generalize text.tail = anchor at h htext ⊢
          obtain ⟨behind, hsplit⟩ := anchor_split anchor
          generalize anchor.drop (anchor.takeWhile fun c => !isWhitespaceChar c).length =
            after at h hsplit ⊢
          generalize (anchor.takeWhile fun c => !isWhitespaceChar c) = name at h hsplit ⊢
          have hbytes : byteLength text = 1 + byteLength name +
              byteLength (after.takeWhile isWhitespaceChar) + byteLength (trim after) +
              byteLength behind := by
            have hampersand : Char.utf8Size '&' = 1 := by decide
            rw [htext, hsplit]
            simp only [byteLength_cons, byteLength_append, hampersand]
            omega
          split at h
          · cases h
          obtain ⟨⟨found, after_⟩, hinner, h⟩ := bind_eq_ok.mp h
          have hinnerPlace : StandsAt document (offset + byteLength name + 1 +
              byteLength (skipped ++ after.takeWhile isWhitespaceChar)) (trim after) := by
            have hvalue := hplace
            rw [htext, hsplit, ← List.singleton_append] at hvalue
            have hstands := hvalue.right.right.right.left
            have hampersand : byteLength ['&'] = 1 := by decide
            rw [hampersand] at hstands
            rw [byteLength_append]
            convert hstands using 1
            omega
          obtain ⟨⟨value, next, hvalue, rfl, rfl, htraced, hwhole, hnext, hwork⟩, hlocation,
            hremaining⟩ := ih hcurrent hinnerPlace (by omega) (by omega) hinner
          have hremaining : next.remaining = state.remaining := hremaining
          simp only at h
          split at h
          · cases h
          · cases h
            refine ⟨⟨value, { next with anchors := (String.ofList name, value) :: next.anchors },
              ?_, rfl, rfl, htraced, hwhole, ?_, hwork⟩, hlocation, hremaining⟩
            · rw [hvalue]
              rfl
            · refine ⟨hnext.lines, hnext.ordered, fun other hmem => ?_, hnext.bounded⟩
              have hahead := hcurrent.ahead other (hremaining ▸ hmem)
              exact List.forall_mem_cons.mpr
                ⟨⟨htraced, Nat.lt_of_le_of_lt hlocation hahead⟩, hnext.anchors other hmem⟩
      rw [if_neg ‹_›]
      split at h
      · next hbracket =>
          rw [if_pos hbracket]
          obtain ⟨⟨found, added⟩, hflow, h⟩ := bind_eq_ok.mp h
          cases h
          have hflow : parseFlow source offset (expandAnchors state.anchors)
              (maxAliasExpansions - state.work) text = .ok (found, added) := hflow
          have hanchors : AnchorsTraced document offset state.anchors := fun anchor hmem =>
            ⟨(hcurrent.anchors anchor hmem).1,
              Nat.lt_of_lt_of_le (hcurrent.anchors anchor hmem).2 hstart⟩
          obtain ⟨value, flow, hvalue, rfl, htraced, rfl, hwork, hlimit⟩ :=
            exists_outlineFlow hanchors hplace hflow
          have hlocation := parseFlow_start hbracket hflow
          refine ⟨⟨value, { state with work := state.work + flow.aliasWork }, ?_, rfl, rfl,
            htraced, outlineFlow_whole hbracket hvalue htraced, ?_, ?_⟩, ?_, rfl⟩
          · rw [hvalue]
            rfl
          · refine ⟨hcurrent.traced.lines, hcurrent.traced.ordered, hcurrent.traced.anchors, ?_⟩
            have hbound := hcurrent.traced.bounded
            change state.work + flow.aliasWork ≤ _
            omega
          · rw [hwork]
          · rw [hlocation]
            exact Nat.le_trans (Nat.le_add_right offset _) hstop
      rw [if_neg ‹_›]
      cases hscalar : parseScalar text with
      | error message =>
          rw [hscalar] at h
          cases h
      | ok value =>
          rw [hscalar] at h
          cases h
          exact ⟨⟨.scalar value _, state, rfl, rfl, rfl, .scalar hmark hscalar, rfl,
            hcurrent.traced, rfl⟩, Nat.le_trans (Nat.le_add_right offset _) hstop, rfl⟩

end Inline

section Keys

variable {document : List Char} {source : Nat} {line : Line} {state : Outliner}

/-- A text on a line, behind some other text of its content. -/
structure Line.Holds (line : Line) (lead text : List Char) : Prop where
  split : line.content = lead ++ text

theorem Line.Holds.place {lead text : List Char} (h : line.Holds lead text)
    (hline : line.StandsIn document) :
    StandsAt document (line.start + line.indent + byteLength lead) text := by
  have hcontent := hline.content
  rw [h.split] at hcontent
  exact hcontent.right

theorem takeWhile_append_stop {p : Char → Bool} {c : Char} (hc : p c = false)
    (text rest : List Char) : (text ++ c :: rest).takeWhile p = text.takeWhile p := by
  induction text with
  | nil => exact List.takeWhile_cons_of_neg (by rw [hc]; exact Bool.false_ne_true)
  | cons d text ih =>
      by_cases hd : p d = true
      · rw [List.cons_append, List.takeWhile_cons_of_pos hd, List.takeWhile_cons_of_pos hd, ih]
      · rw [List.cons_append, List.takeWhile_cons_of_neg hd, List.takeWhile_cons_of_neg hd]

theorem parseKey_trim (text : List Char) : parseKey (trim text) = parseKey text := by
  simp only [parseKey, trim_trim]

/-- A key has a traced outline, and the text of its value is behind it on the line. -/
theorem exists_outlineKey {seen : List (String × Loc)} {lead content rest : List Char}
    {name : String} {location : Loc} (hline : line.StandsIn document)
    (hcontent : line.Holds lead content)
    (h : parseEntryKey source seen line content = .ok (name, location, rest)) :
    ∃ key, outlineKey source seen line lead content = some (key, rest) ∧ key.name = name ∧
      key.mark.location = location ∧ key.Stands document ∧
      key.mark.start = line.start + line.indent + byteLength lead +
        byteLength (content.takeWhile isWhitespaceChar) ∧
      rest = trimStart rest ∧ ∃ front, front ≠ [] ∧ content = front ++ rest := by
  have hrun := h
  rw [parseEntryKey] at h
  cases hsplit : splitMapping content with
  | none =>
      rw [hsplit] at h
      cases h
  | some found =>
      obtain ⟨raw, behind⟩ := found
      simp only [hsplit] at h
      cases hkey : parseKey raw with
      | error message =>
          rw [hkey] at h
          cases h
      | ok key =>
          simp only [hkey] at h
          split at h
          · cases h
          · split at h
            · cases h
            · cases h
              have hfound : KeyScan.start.split content = some (raw, behind) := hsplit
              have hcolon := KeyScan.eq_of_split hfound
              have hraw : raw = raw.takeWhile isWhitespaceChar ++
                  (trim raw ++ (trimStart raw).rtakeWhile isWhitespaceChar) := by
                rw [trim, trimEnd, List.rdropWhile_append_rtakeWhile, trimStart,
                  List.takeWhile_append_dropWhile]
              have hlength := congrArg byteLength hraw
              rw [byteLength_append, byteLength_append] at hlength
              have hparts : content = raw.takeWhile isWhitespaceChar ++ (trim raw ++
                  ((trimStart raw).rtakeWhile isWhitespaceChar ++ ':' :: behind)) := by
                calc content
                  _ = raw ++ ':' :: behind := hcolon
                  _ = (raw.takeWhile isWhitespaceChar ++
                      (trim raw ++ (trimStart raw).rtakeWhile isWhitespaceChar)) ++
                        ':' :: behind := congrArg (· ++ ':' :: behind) hraw
                  _ = _ := by simp only [List.append_assoc]
              have hplace := hcontent.place hline
              rw [hparts] at hplace
              refine ⟨⟨name, ⟨_, lead ++ raw.takeWhile isWhitespaceChar, trim raw,
                (trimStart raw).rtakeWhile isWhitespaceChar⟩⟩, ?_, rfl, rfl, ⟨?_, ?_, ?_, ?_⟩, ?_, ?_,
                raw ++ ':' :: behind.takeWhile isWhitespaceChar, ?_, ?_⟩
              · rw [outlineKey, hrun]
                simp only [hsplit]
                rfl
              · have hstands := hplace.right.left
                rw [Nat.add_assoc, ← byteLength_append] at hstands
                exact hstands
              · have hstands := hplace.right.right.right
                rw [← List.singleton_append] at hstands
                rw [Nat.add_assoc _ (byteLength lead), ← byteLength_append] at hstands
                exact hstands.left
              · change parseKey (trim raw) = _
                rw [parseKey_trim]
                exact hkey
              · refine ⟨byteLength (raw.takeWhile isWhitespaceChar), ?_, ?_⟩
                · rw [byteLength_append]
                  exact Nat.le_add_left _ _
                · change line.start + line.indent + byteLength raw = _
                  rw [hlength]
                  simp only [Nat.add_assoc]
              · rw [hcolon, takeWhile_append_stop (by decide)]
                change line.start + line.indent + byteLength (lead ++ _) = _
                rw [byteLength_append]
                omega
              · exact (List.dropWhile_idempotent _ _).symm
              · exact List.append_ne_nil_of_right_ne_nil _ (List.cons_ne_nil _ _)
              · rw [hcolon, List.append_assoc, List.cons_append, trimStart,
                  List.takeWhile_append_dropWhile]

/-- The lines that a block scalar leaves. -/
theorem blockPieces_suffix (contentIndent parentIndent stop : Nat) (lines : List Line) :
    (blockPieces contentIndent parentIndent stop lines).2.1 <:+ lines := by
  induction lines generalizing stop with
  | nil => exact List.suffix_rfl
  | cons line lines ih =>
      rw [blockPieces]
      split
      · exact List.suffix_rfl
      · exact (ih line.stop).trans (List.suffix_cons line lines)

/-- A block scalar has a traced outline: the line in front of its header is hidden. -/
theorem exists_outlineBlockScalar {header front : List Char} {indent : Nat} {node : YamlNode}
    {reader : Reader} (hcurrent : state.Current document line) (hfront : front ≠ [])
    (hheader : line.Holds front header) (hhead : header.head? = some '|' ∨ header.head? = some '>')
    (h : parseBlockScalar source line header indent state.reader = .ok (node, reader)) :
    Follows document state node reader (outlineBlockScalar source line header indent state) := by
  have hrun := h
  rw [parseBlockScalar] at h
  split at h
  · cases h
  cases h
  rw [outlineBlockScalar, hrun]
  have htake : line.content.take (line.content.length - header.length) = front := by
    rw [hheader.split, List.length_append, Nat.add_sub_cancel, List.take_left]
  simp only [htake]
  refine ⟨_, _, rfl, rfl, rfl, ?_, trivial, ?_, rfl⟩
  · obtain ⟨c, hc, hindicator⟩ : ∃ c, header.head? = some c ∧ (c = '|' ∨ c = '>') :=
      hhead.elim (fun h => ⟨'|', h, .inl rfl⟩) fun h => ⟨'>', h, .inr rfl⟩
    have hplace := hheader.place hcurrent.stands
    rw [eq_cons_tail hc, ← List.singleton_append] at hplace
    have hskipped : byteLength (List.replicate line.indent ' ' ++ front) =
        line.indent + byteLength front := by
      rw [byteLength_append]
      exact congrArg (· + _) (byteLength_spaces line.indent)
    refine .folded _ c hindicator ?_ (List.append_ne_nil_of_right_ne_nil _ hfront)
    change StandsAt document (line.start + byteLength _) [c]
    rw [hskipped, ← Nat.add_assoc]
    exact hplace.left
  · exact hcurrent.traced.suffix (blockPieces_suffix _ _ _ _)

end Keys

section Blocks

variable (document : List Char) (source sourceLength : Nat)

/-- A pending entry stands on a line that is read. -/
def PendingTraced (pending : Option (Line × List Char × List Char)) (state : Outliner) : Prop :=
  ∀ entry ∈ pending, state.Current document entry.1 ∧ entry.1.Holds entry.2.1 entry.2.2

/-- The text of a pending entry, without what is in front of it. -/
def pendingText (pending : Option (Line × List Char × List Char)) : Option (Line × List Char) :=
  pending.map fun entry => (entry.1, entry.2.2)

/-- Every block that the reader reads with some fuel has a traced outline. -/
def FollowsBlock (fuel : Nat) : Prop :=
  ∀ {indent : Nat} {state : Outliner} {node : YamlNode} {reader : Reader},
    state.Traced document →
    parseBlock source sourceLength fuel indent state.reader = .ok (node, reader) →
    Follows document state node reader (outlineBlock source fuel indent state)

def FollowsSequence (fuel : Nat) : Prop :=
  ∀ {indent start : Nat} {state : Outliner} {node : YamlNode} {reader : Reader},
    state.Traced document → StandsAt document start ['-'] →
    parseSequence source sourceLength fuel indent start state.reader = .ok (node, reader) →
    Follows document state node reader (outlineSequence source fuel indent start state)

def FollowsBlockItems (fuel : Nat) : Prop :=
  ∀ {indent : Nat} {state : Outliner} {nodes : List YamlNode} {reader : Reader},
    state.Traced document →
    parseItems source sourceLength fuel indent state.reader = .ok (nodes, reader) →
    ∃ values next, outlineItems source fuel indent state = some (values, next) ∧
      Written.expandValues values = nodes ∧ next.reader = reader ∧
      (∀ value ∈ values, value.Traced document) ∧ (∀ value ∈ values, value.Whole) ∧
      next.Traced document ∧ next.work = state.work + Written.valuesWork values

def FollowsItem (fuel : Nat) : Prop :=
  ∀ {indent : Nat} {line : Line} {behind : List Char} {state : Outliner} {node : YamlNode}
    {reader : Reader}, state.Current document line → line.indent = indent →
    line.Holds ['-'] behind → (behind = [] ∨ behind.head? = some ' ') →
    parseItem source sourceLength fuel indent line (trimStart behind) state.reader =
      .ok (node, reader) →
    Follows document state node reader (outlineItem source fuel indent line behind state)

def FollowsMapping (fuel : Nat) : Prop :=
  ∀ {indent start : Nat} {skipped : List Char}
    {pending : Option (Line × List Char × List Char)} {state : Outliner} {node : YamlNode}
    {reader : Reader}, state.Traced document → PendingTraced document pending state.skipTrivia →
    (∀ line content next, nextEntry indent (pendingText pending) state.skipTrivia.reader =
        some (line, content, next) →
      line.start + line.indent + byteLength ((pending.map (·.2.1)).getD []) +
        byteLength (content.takeWhile isWhitespaceChar) = start + byteLength skipped) →
    parseMapping source sourceLength fuel indent start (pendingText pending) state.reader =
      .ok (node, reader) →
    Follows document state node reader
      (outlineMapping source fuel indent start skipped pending state)

def FollowsBlockEntries (fuel : Nat) : Prop :=
  ∀ {indent : Nat} {seen : List (String × Loc)}
    {pending : Option (Line × List Char × List Char)} {state : Outliner}
    {nodes : List (String × Loc × YamlNode)} {reader : Reader},
    state.Traced document → PendingTraced document pending state.skipTrivia →
    parseEntries source sourceLength fuel indent seen (pendingText pending) state.reader =
      .ok (nodes, reader) →
    ∃ entries next, outlineEntries source fuel indent seen pending state = some (entries, next) ∧
      Written.expandEntries entries = nodes ∧ next.reader = reader ∧
      (∀ entry ∈ entries.head?, ∃ line content next,
        nextEntry indent (pendingText pending) state.skipTrivia.reader =
          some (line, content, next) ∧
        entry.1.mark.start = line.start + line.indent +
          byteLength ((pending.map (·.2.1)).getD []) +
            byteLength (content.takeWhile isWhitespaceChar)) ∧
      (∀ entry ∈ entries, entry.1.Stands document) ∧
      (∀ entry ∈ entries, entry.2.Traced document) ∧
      (∀ entry ∈ entries, entry.2.Whole ∨ entry.2 = .absent entry.1.mark.location) ∧
      next.Traced document ∧ next.work = state.work + Written.entriesWork entries

/-- The value of an entry: it may also be absent, and is located at its key then. -/
def FollowsEntry (state : Outliner) (keyLocation : Loc) (node : YamlNode) (reader : Reader)
    (result : Option (Written × Outliner)) : Prop :=
  ∃ value next, result = some (value, next) ∧ value.expand = node ∧ next.reader = reader ∧
    value.Traced document ∧ (value.Whole ∨ value = .absent keyLocation) ∧ next.Traced document ∧
    next.work = state.work + value.work

theorem Follows.entry {document : List Char} {state : Outliner} {keyLocation : Loc}
    {node : YamlNode} {reader : Reader} {result : Option (Written × Outliner)}
    (h : Follows document state node reader result) :
    FollowsEntry document state keyLocation node reader result := by
  obtain ⟨value, next, hresult, hexpand, hreader, htraced, hwhole, hnext, hwork⟩ := h
  exact ⟨value, next, hresult, hexpand, hreader, htraced, .inl hwhole, hnext, hwork⟩

def FollowsEntryValue (fuel : Nat) : Prop :=
  ∀ {indent : Nat} {line : Line} {keyLocation : Loc} {front rest : List Char}
    {state : Outliner} {node : YamlNode} {reader : Reader}, state.Current document line →
    front ≠ [] → line.Holds front rest →
    parseEntryValue source sourceLength fuel indent line keyLocation rest state.reader =
      .ok (node, reader) →
    FollowsEntry document state keyLocation node reader
      (outlineEntryValue source fuel indent line keyLocation rest state)

variable {document source sourceLength} {fuel : Nat}

theorem Written.expandValues_eq_map (values : List Written) :
    expandValues values = values.map expand := by
  induction values with
  | nil => rfl
  | cons value values ih => rw [expandValues, ih, List.map_cons]

theorem Written.expandEntries_eq_map (entries : List (WrittenKey × Written)) :
    expandEntries entries =
      entries.map fun entry => (entry.1.name, entry.1.mark.location, entry.2.expand) := by
  induction entries with
  | nil => rfl
  | cons entry entries ih => rw [expandEntries, ih, List.map_cons]

theorem itemText_eq_some {content behind : List Char} (h : itemText content = some behind) :
    content = '-' :: behind ∧ (behind = [] ∨ behind.head? = some ' ') := by
  rw [itemText] at h
  split at h
  · next rest hstrip =>
      split at h
      · next hrest =>
          cases h
          exact ⟨eq_cons_of_stripStart hstrip, hrest⟩
      · cases h
  · cases h

/-- The next value on a line of its own, or behind a dash or a colon. -/
theorem exists_outlineInlineValue {line : Line} {lead text skipped : List Char} {offset : Nat}
    {state : Outliner} {node : YamlNode} {reader : Reader} (hcurrent : state.Current document line)
    (htext : line.Holds lead text)
    (hoffset : offset + byteLength skipped = line.start + line.indent + byteLength lead)
    (hstart : line.start ≤ offset)
    (h : parseInlineValue source line text offset state.reader = .ok (node, reader)) :
    Follows document state node reader
      (outlineInlineValue source line text offset skipped state) := by
  have hplace := htext.place hcurrent.stands
  rw [← hoffset] at hplace
  have hstop : offset + byteLength text ≤ line.stop := by
    have hlength := congrArg byteLength htext.split
    rw [byteLength_append] at hlength
    rw [hcurrent.stands.stop]
    omega
  exact (exists_outlineInline hcurrent hplace hstart hstop h).1

theorem followsBlock_succ (hsequence : FollowsSequence document source sourceLength fuel)
    (hmapping : FollowsMapping document source sourceLength fuel) :
    FollowsBlock document source sourceLength (fuel + 1) := by
  intro indent state node reader htraced h
  have htrivia := htraced.skipTrivia
  rw [parseBlock.eq_def] at h
  rw [outlineBlock.eq_def]
  simp only [← Outliner.skipTrivia_reader] at h ⊢
  rw [Outliner.reader_remaining] at h
  cases hlines : state.skipTrivia.remaining with
  | nil =>
      rw [hlines] at h
      cases h
  | cons line rest =>
      simp only [hlines] at h ⊢
      have hline := htrivia.lines line (hlines ▸ List.mem_cons_self)
      split at h
      · cases h
      rename_i hindent
      rw [if_neg hindent]
      obtain rfl := not_not.mp hindent
      split at h
      · next hdash =>
          rw [if_pos hdash]
          refine hsequence htrivia ?_ h
          have hcontent := hline.content
          rcases hdash with hdash | hdash
          · rwa [hdash] at hcontent
          · obtain ⟨tail, htail⟩ := List.isPrefixOf_iff_prefix.mp hdash
            rw [← htail, List.cons_append, ← List.singleton_append] at hcontent
            exact hcontent.left
      rw [if_neg ‹_›]
      split at h
      · next hkey =>
          rw [if_pos hkey]
          refine hmapping htrivia (fun _ h => by cases h) (fun first content next hnext => ?_) h
          rw [Outliner.skipTrivia_skipTrivia] at hnext
          obtain ⟨others, hfirst, rfl, hsame, -⟩ := nextEntry_none hnext
          rw [Outliner.reader_remaining, hlines] at hfirst
          obtain ⟨rfl, -⟩ := List.cons.inj hfirst
          rfl
      rw [if_neg ‹_›]
      exact exists_outlineInlineValue (htrivia.current hlines) ⟨rfl⟩ rfl (Nat.le_add_right _ _) h

theorem followsSequence_succ (hitems : FollowsBlockItems document source sourceLength fuel) :
    FollowsSequence document source sourceLength (fuel + 1) := by
  intro indent start state node reader htraced hdash h
  rw [parseSequence.eq_def] at h
  rw [outlineSequence.eq_def]
  obtain ⟨⟨nodes, next⟩, hread, h⟩ := bind_eq_ok.mp h
  cases h
  obtain ⟨values, next, hvalues, rfl, rfl, hvaluesTraced, hwhole, hnext, hwork⟩ :=
    hitems htraced hread
  simp only [hvalues, Option.map_some]
  have hlast : ((Written.expandValues values).getLast?.map YamlNode.nodeEnd).getD start =
      (values.getLast?.map fun value => value.expand.nodeEnd).getD start := by
    rw [Written.expandValues_eq_map, List.getLast?_map, Option.map_map]
    rfl
  refine ⟨_, next, rfl, ?_, rfl, .sequence hdash ?_ hwhole hvaluesTraced, trivial, hnext, hwork⟩
  · rw [hlast]
    rfl
  · rfl

theorem followsBlockItems_succ (hitem : FollowsItem document source sourceLength fuel)
    (hitems : FollowsBlockItems document source sourceLength fuel) :
    FollowsBlockItems document source sourceLength (fuel + 1) := by
  intro indent state nodes reader htraced h
  have htrivia := htraced.skipTrivia
  rw [parseItems.eq_def] at h
  rw [outlineItems.eq_def]
  simp only [← Outliner.skipTrivia_reader] at h ⊢
  rw [Outliner.reader_remaining] at h
  have hnone : ∃ values next, some (([] : List Written), state.skipTrivia) = some (values, next) ∧
      Written.expandValues values = [] ∧ next.reader = state.skipTrivia.reader ∧
      (∀ value ∈ values, value.Traced document) ∧ (∀ value ∈ values, value.Whole) ∧
      next.Traced document ∧ next.work = state.work + Written.valuesWork values :=
    ⟨[], _, rfl, rfl, rfl, fun _ h => (List.not_mem_nil h).elim,
      fun _ h => (List.not_mem_nil h).elim, htrivia, rfl⟩
  cases hlines : state.skipTrivia.remaining with
  | nil =>
      rw [hlines] at h
      cases h
      exact hnone
  | cons line rest =>
      simp only [hlines] at h ⊢
      split at h
      · next hindent =>
          cases h
          rw [if_pos hindent]
          exact hnone
      rename_i hindent
      rw [if_neg hindent]
      cases hitemText : itemText line.content with
      | none =>
          rw [hitemText] at h
          cases h
          exact hnone
      | some behind =>
          simp only [hitemText] at h ⊢
          obtain ⟨hcontent, hbehind⟩ := itemText_eq_some hitemText
          obtain ⟨⟨node, middle⟩, hread, h⟩ := bind_eq_ok.mp h
          obtain ⟨⟨rest', after⟩, hrest, h⟩ := bind_eq_ok.mp h
          cases h
          obtain ⟨value, next, hvalue, rfl, rfl, hvalueTraced, hwhole, hnext, hwork⟩ :=
            hitem (htrivia.current hlines) (not_not.mp hindent) ⟨hcontent⟩ hbehind hread
          obtain ⟨values, final, hvalues, rfl, rfl, hvaluesTraced, hwholes, hfinal, hworks⟩ :=
            hitems hnext hrest
          refine ⟨value :: values, final, ?_, rfl, rfl,
            List.forall_mem_cons.mpr ⟨hvalueTraced, hvaluesTraced⟩,
            List.forall_mem_cons.mpr ⟨hwhole, hwholes⟩, hfinal, ?_⟩
          · simp only [hvalue, hvalues, Option.bind_eq_bind, Option.bind_some]
          · rw [hworks, hwork, Nat.add_assoc]
            rfl

theorem followsItem_succ (hblock : FollowsBlock document source sourceLength fuel)
    (hmapping : FollowsMapping document source sourceLength fuel) :
    FollowsItem document source sourceLength (fuel + 1) := by
  intro indent line behind state node reader hcurrent hindent hcontent hbehind h
  have htrivia := hcurrent.skipTrivia
  rw [parseItem.eq_def] at h
  rw [outlineItem.eq_def]
  simp only [← Outliner.skipTrivia_reader, Outliner.reader_remaining] at h ⊢
  split at h
  · next hempty =>
      rw [if_pos hempty]
      cases hlines : state.skipTrivia.remaining with
      | nil =>
          rw [hlines] at h
          cases h
      | cons next rest =>
          simp only [hlines] at h ⊢
          split at h
          · cases h
          · next hdeep =>
              rw [if_neg hdeep]
              exact hblock htrivia.traced h
  rename_i hne
  rw [if_neg hne]
  -- what is behind the dash starts with a space, which the reader counts
  obtain ⟨tail, rfl⟩ : ∃ tail, behind = ' ' :: tail := by
    rcases hbehind with rfl | hspace
    · exact absurd rfl hne
    · exact ⟨_, eq_cons_tail hspace⟩
  have hgap : (' ' :: tail).takeWhile isWhitespaceChar = ' ' :: tail.takeWhile isWhitespaceChar :=
    List.takeWhile_cons_of_pos (by decide)
  have htext : trimStart (' ' :: tail) = trimStart tail := List.dropWhile_cons_of_pos (by decide)
  have hsolid : (trimStart tail).takeWhile isWhitespaceChar = [] := by
    cases hstart : trimStart tail with
    | nil => rfl
    | cons c rest =>
        have hhead := List.head?_dropWhile_not isWhitespaceChar tail
        rw [trimStart] at hstart
        rw [hstart] at hhead
        exact List.takeWhile_cons_of_neg (by rw [hhead]; exact Bool.false_ne_true)
  have hlead : line.Holds ('-' :: ' ' :: tail.takeWhile isWhitespaceChar) (trimStart tail) := by
    have hparts : tail.takeWhile isWhitespaceChar ++ trimStart tail = tail :=
      List.takeWhile_append_dropWhile
    constructor
    rw [hcontent.split]
    change '-' :: ' ' :: tail = '-' :: ' ' :: (tail.takeWhile isWhitespaceChar ++ trimStart tail)
    rw [hparts]
  have hbytes : byteLength ('-' :: ' ' :: tail.takeWhile isWhitespaceChar) =
      2 + byteLength (tail.takeWhile isWhitespaceChar) := by
    have hdash : Char.utf8Size '-' = 1 := by decide
    have hspace : Char.utf8Size ' ' = 1 := by decide
    rw [byteLength_cons, byteLength_cons, hdash, hspace]
    omega
  rw [htext] at h ⊢
  rw [hgap, List.tail_cons]
  split at h
  · next hkey =>
      rw [if_pos hkey]
      have hpending : PendingTraced document
          (some (line, '-' :: ' ' :: tail.takeWhile isWhitespaceChar, trimStart tail))
          state.skipTrivia := by
        intro entry hentry
        cases hentry
        exact ⟨htrivia, hlead⟩
      refine hmapping hcurrent.traced hpending (fun first content next hnext => ?_) h
      cases hnext
      change line.start + line.indent + byteLength ('-' :: ' ' :: _) + byteLength _ = _
      rw [hsolid, hbytes, byteLength_nil]
      omega
  rw [if_neg ‹_›]
  refine exists_outlineInlineValue hcurrent hlead ?_ (by omega) h
  rw [hbytes, hindent]
  omega

theorem followsMapping_succ (hentries : FollowsBlockEntries document source sourceLength fuel) :
    FollowsMapping document source sourceLength (fuel + 1) := by
  intro indent start skipped pending state node reader htraced hpending hfirst h
  rw [parseMapping.eq_def] at h
  rw [outlineMapping.eq_def]
  obtain ⟨⟨nodes, next⟩, hread, h⟩ := bind_eq_ok.mp h
  cases h
  obtain ⟨entries, next, houtline, rfl, rfl, hhead, hkeys, hvalues, hwhole, hnext, hwork⟩ :=
    hentries htraced hpending hread
  simp only [houtline, Option.map_some]
  have hlast : ((Written.expandEntries entries).getLast?.map (·.2.2.nodeEnd)).getD start =
      (entries.getLast?.map fun entry => entry.2.expand.nodeEnd).getD start := by
    rw [Written.expandEntries_eq_map, List.getLast?_map, Option.map_map]
    rfl
  refine ⟨_, next, rfl, ?_, rfl, .mapping (fun entry hentry => ?_) ?_ hkeys hwhole hvalues,
    trivial, hnext, hwork⟩
  · rw [hlast]
    rfl
  · obtain ⟨line, content, after, hfound, hstart⟩ := hhead entry hentry
    exact hstart.trans (hfirst line content after hfound)
  · rfl

theorem followsEntryValue_succ (hblock : FollowsBlock document source sourceLength fuel) :
    FollowsEntryValue document source sourceLength (fuel + 1) := by
  intro indent line keyLocation front rest state node reader hcurrent hfront hrest h
  have htrivia := hcurrent.skipTrivia
  rw [parseEntryValue.eq_def] at h
  rw [outlineEntryValue.eq_def]
  simp only [← Outliner.skipTrivia_reader, Outliner.reader_remaining] at h ⊢
  split at h
  · next hempty =>
      rw [if_pos hempty]
      cases hlines : state.skipTrivia.remaining with
      | nil =>
          rw [hlines] at h
          cases h
          exact ⟨_, _, rfl, rfl, rfl, .absent _, .inr rfl, htrivia.traced, rfl⟩
      | cons next others =>
          simp only [hlines] at h ⊢
          split at h
          · next hdeep =>
              rw [if_pos hdeep]
              cases h
              exact ⟨_, _, rfl, rfl, rfl, .absent _, .inr rfl, htrivia.traced, rfl⟩
          · next hdeep =>
              rw [if_neg hdeep]
              exact (hblock htrivia.traced h).entry
  rw [if_neg ‹_›]
  split at h
  · next hheader =>
      rw [if_pos hheader]
      exact (exists_outlineBlockScalar hcurrent hfront hrest hheader h).entry
  rw [if_neg ‹_›]
  have hlength := congrArg byteLength hrest.split
  have hstop := hcurrent.stands.stop
  rw [byteLength_append] at hlength
  exact (exists_outlineInlineValue hcurrent hrest (by rw [byteLength_nil]; omega) (by omega)
    h).entry

/-- The entry that is read next stands on a line that is read. -/
theorem exists_nextEntry {indent : Nat} {pending : Option (Line × List Char × List Char)}
    {state : Outliner} {line : Line} {content : List Char} {reader : Reader}
    (htraced : state.Traced document) (hpending : PendingTraced document pending state)
    (h : nextEntry indent (pendingText pending) state.reader = some (line, content, reader)) :
    Outliner.Current document line { state with remaining := reader.remaining } ∧
      Outliner.reader { state with remaining := reader.remaining } = reader ∧
      line.Holds ((pending.map (·.2.1)).getD []) content := by
  cases pending with
  | some entry =>
      cases h
      obtain ⟨hcurrent, hholds⟩ := hpending entry rfl
      exact ⟨hcurrent, rfl, hholds⟩
  | none =>
      obtain ⟨rest, hlines, rfl, -, rfl⟩ := nextEntry_none h
      exact ⟨htraced.current hlines, rfl, ⟨rfl⟩⟩

theorem followsBlockEntries_succ (hvalue : FollowsEntryValue document source sourceLength fuel)
    (hentries : FollowsBlockEntries document source sourceLength fuel) :
    FollowsBlockEntries document source sourceLength (fuel + 1) := by
  intro indent seen pending state nodes reader htraced hpending h
  have htrivia := htraced.skipTrivia
  rw [parseEntries.eq_def] at h
  rw [outlineEntries.eq_def]
  simp only [← Outliner.skipTrivia_reader] at h ⊢
  rw [← pendingText]
  cases hnext : nextEntry indent (pendingText pending) state.skipTrivia.reader with
  | none =>
      rw [hnext] at h
      cases h
      exact ⟨[], state.skipTrivia, rfl, rfl, rfl, (fun _ h => by cases h),
        (fun _ h => (List.not_mem_nil h).elim), (fun _ h => (List.not_mem_nil h).elim),
        (fun _ h => (List.not_mem_nil h).elim), htrivia, rfl⟩
  | some found =>
      obtain ⟨line, content, middle⟩ := found
      obtain ⟨hcurrent, hmiddle, hholds⟩ := exists_nextEntry htrivia hpending hnext
      simp only [hnext] at h ⊢
      obtain ⟨⟨name, location, rest⟩, hname, h⟩ := bind_eq_ok.mp h
      obtain ⟨⟨node, after⟩, hread, h⟩ := bind_eq_ok.mp h
      obtain ⟨⟨more, final⟩, hmore, h⟩ := bind_eq_ok.mp h
      cases h
      obtain ⟨key, hkey, rfl, rfl, hstands, hstart, -, front, hfront, hcontent⟩ :=
        exists_outlineKey hcurrent.stands hholds hname
      have hbehind : line.Holds ((pending.map (·.2.1)).getD [] ++ front) rest := by
        constructor
        rw [hholds.split, hcontent, List.append_assoc]
      rw [← hmiddle] at hread
      obtain ⟨value, next, houtline, rfl, rfl, hvalueTraced, hwhole, hnextTraced, hwork⟩ :=
        hvalue hcurrent (List.append_ne_nil_of_right_ne_nil _ hfront) hbehind hread
      obtain ⟨entries, final, hentriesOutline, rfl, rfl, -, hkeys, htracedValues, hwholes,
        hfinal, hworks⟩ := @hentries _ _ none _ _ _ hnextTraced (fun _ h => by cases h) hmore
      refine ⟨(key, value) :: entries, final, ?_, rfl, rfl, ?_,
        List.forall_mem_cons.mpr ⟨hstands, hkeys⟩,
        List.forall_mem_cons.mpr ⟨hvalueTraced, htracedValues⟩,
        List.forall_mem_cons.mpr ⟨hwhole, hwholes⟩, hfinal, ?_⟩
      · simp only [hkey, houtline, hentriesOutline, Option.bind_eq_bind, Option.bind_some]
      · intro entry hentry
        cases hentry
        exact ⟨line, content, middle, rfl, hstart⟩
      · rw [hworks, hwork, Nat.add_assoc]
        rfl

/-- With any fuel, the outlines go along the reader. -/
theorem follows (fuel : Nat) :
    FollowsBlock document source sourceLength fuel ∧
      FollowsSequence document source sourceLength fuel ∧
      FollowsBlockItems document source sourceLength fuel ∧
      FollowsItem document source sourceLength fuel ∧
      FollowsMapping document source sourceLength fuel ∧
      FollowsBlockEntries document source sourceLength fuel ∧
      FollowsEntryValue document source sourceLength fuel := by
  induction fuel with
  | zero =>
      refine ⟨?_, ?_, ?_, ?_, ?_, ?_, ?_⟩
      · intro indent state node reader _ h
        rw [parseBlock.eq_def] at h
        cases h
      · intro indent start state node reader _ _ h
        rw [parseSequence.eq_def] at h
        cases h
      · intro indent state nodes reader _ h
        rw [parseItems.eq_def] at h
        cases h
      · intro indent line behind state node reader _ _ _ _ h
        rw [parseItem.eq_def] at h
        cases h
      · intro indent start skipped pending state node reader _ _ _ h
        rw [parseMapping.eq_def] at h
        cases h
      · intro indent seen pending state nodes reader _ _ h
        rw [parseEntries.eq_def] at h
        cases h
      · intro indent line keyLocation front rest state node reader _ _ _ h
        rw [parseEntryValue.eq_def] at h
        cases h
  | succ fuel ih =>
      obtain ⟨hblock, hsequence, hitems, hitem, hmapping, hentries, hvalue⟩ := ih
      exact ⟨followsBlock_succ hsequence hmapping, followsSequence_succ hitems,
        followsBlockItems_succ hitem hitems, followsItem_succ hblock hmapping,
        followsMapping_succ hentries, followsBlockEntries_succ hvalue hentries,
        followsEntryValue_succ hblock⟩

end Blocks

section Documents

variable {source sourceLength : Nat} {fragments : List (List Char)} {node : YamlNode}

theorem rootReader_reader (lines : List Line) :
    Outliner.reader ⟨(rootReader lines).remaining, [], 0⟩ = rootReader lines := by
  rw [rootReader]
  split
  · rfl
  · rfl

theorem rootReader_suffix (lines : List Line) : (rootReader lines).remaining <:+ lines := by
  have htrivia : (Reader.skipTrivia ⟨lines, [], 0⟩).remaining <:+ lines :=
    List.dropWhile_suffix _
  rw [rootReader]
  split
  · exact ((List.dropWhile_suffix _).trans (List.tail_suffix _)).trans htrivia
  · exact htrivia

/-- An accepted document has a traced outline, which expands to its node; its aliases stay in
the limit. -/
theorem exists_outline (h : lowerLines source sourceLength (documentLines fragments) = .ok node) :
    ∃ root, outline source fragments = some root ∧ root.expand = node ∧
      root.Traced fragments.flatten ∧ root.work ≤ maxAliasExpansions := by
  obtain ⟨hlines, hordered⟩ := documentLines_stands fragments
  rw [lowerLines] at h
  split at h
  · cases h
  obtain ⟨⟨found, reader⟩, hroot, h⟩ := bind_eq_ok.mp h
  have hnode : found = node := by
    simp only at h
    split at h
    · cases h
      rfl
    · cases h
  subst hnode
  rw [← rootReader_reader, parseRoot] at hroot
  rw [outline, outlineLines, outlineRoot]
  have hsuffix := rootReader_suffix (documentLines fragments)
  generalize (rootReader (documentLines fragments)).remaining = remaining at hroot hsuffix ⊢
  cases remaining with
  | nil =>
      cases hroot
      exact ⟨_, rfl, rfl, .absent _, Nat.zero_le _⟩
  | cons line rest =>
      have hstart : Outliner.Traced fragments.flatten ⟨line :: rest, [], 0⟩ :=
        ⟨fun line hmem => hlines line (hsuffix.subset hmem), hordered.sublist hsuffix.sublist,
          fun _ _ _ hmem => (List.not_mem_nil hmem).elim, Nat.zero_le _⟩
      obtain ⟨root, next, houtline, rfl, rfl, htraced, -, hnext, hwork⟩ :=
        (follows _).1 hstart hroot
      refine ⟨root, ?_, rfl, htraced, ?_⟩
      · exact congrArg (Option.map (·.1)) houtline
      · have hbound := hnext.bounded
        rwa [hwork, Nat.zero_add] at hbound

end Documents

end Telora.Yaml
