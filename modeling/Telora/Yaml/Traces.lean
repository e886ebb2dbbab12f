import Telora.Library.ExceptBind
import Telora.Library.Lists
import Telora.Library.Utf8
import Telora.Yaml.Outline

/-!
# Traced outlines

What the reader knows of an outline when it has read it: every text of it stands at its place in
the document, every alias in block style has a value that is not too deep, and the anchor of
every alias in flow style is before the line of the alias. Here is also the reading of a flow
value, which goes along the reader of the program step by step.
-/

namespace Telora.Yaml

open Library

section Places

variable {document front text back : List Char} {start : Nat}

/-- A text stands at a byte offset of a document. -/
def StandsAt (document : List Char) (start : Nat) (text : List Char) : Prop :=
  ∃ front back, document = front ++ (text ++ back) ∧ byteLength front = start

theorem StandsAt.left (h : StandsAt document start (front ++ text)) :
    StandsAt document start front := by
  obtain ⟨before, behind, hdocument, hstart⟩ := h
  refine ⟨before, text ++ behind, ?_, hstart⟩
  rw [hdocument, List.append_assoc]

theorem StandsAt.right (h : StandsAt document start (front ++ text)) :
    StandsAt document (start + byteLength front) text := by
  obtain ⟨before, behind, hdocument, hstart⟩ := h
  refine ⟨before ++ front, behind, ?_, ?_⟩
  · rw [hdocument, List.append_assoc, List.append_assoc]
  · rw [byteLength_append, hstart]

/-- The slice of the document at a text is the text. -/
theorem StandsAt.slice (h : StandsAt document start text) :
    sliceBytes start (start + byteLength text) document = some text := by
  obtain ⟨before, behind, rfl, rfl⟩ := h
  exact sliceBytes_append before text behind

/-- White space around a text is in front of it or behind it. -/
theorem trim_split (text : List Char) :
    ∃ behind, text = text.takeWhile isWhitespaceChar ++ (trim text ++ behind) := by
  obtain ⟨behind, hbehind⟩ := List.rdropWhile_prefix isWhitespaceChar (trimStart text)
  refine ⟨behind, ?_⟩
  calc text
    _ = text.takeWhile isWhitespaceChar ++ trimStart text :=
        List.takeWhile_append_dropWhile.symm
    _ = text.takeWhile isWhitespaceChar ++ (trim text ++ behind) := by
        rw [trim, trimEnd, hbehind]

theorem StandsAt.trim (h : StandsAt document start text) :
    StandsAt document (start + byteLength (text.takeWhile isWhitespaceChar)) (trim text) := by
  obtain ⟨behind, hsplit⟩ := trim_split text
  rw [hsplit] at h
  exact h.right.left

end Places

namespace Mark

/-- Where the text of a mark starts. -/
def start (mark : Mark) : Nat := mark.location.start + byteLength mark.skipped

/-- The text of a value stands behind what is not counted, and its location ends behind the
white space that it takes in. -/
structure Stands (document : List Char) (mark : Mark) : Prop where
  text : StandsAt document mark.start mark.text
  stop : mark.location.stop =
    mark.location.start + byteLength mark.text + byteLength mark.padding

end Mark

/-- Where the colon of a key stands. -/
def WrittenKey.colon (key : WrittenKey) : Nat :=
  key.mark.start + byteLength key.mark.text + byteLength key.mark.padding

/-- The text of a key stands behind what is not counted; some of that may be in its location. -/
structure WrittenKey.Stands (document : List Char) (key : WrittenKey) : Prop where
  text : StandsAt document key.mark.start key.mark.text
  colon : StandsAt document key.colon [':']
  name : parseKey key.mark.text = .ok key.name
  stop : ∃ inner ≤ byteLength key.mark.skipped, key.mark.location.stop =
    key.mark.location.start + inner + byteLength key.mark.text + byteLength key.mark.padding

namespace Written

/-- A value in a block: no white space behind its text is taken in. -/
def Whole : Written → Prop
  | absent _ => False
  | scalar _ mark | flowSequence _ mark | flowMapping _ mark => mark.padding = []
  | reference _ inFlow mark => inFlow = false ∧ mark.padding = []
  | folded _ _ _ | sequence _ _ | mapping _ _ _ => True

/-- The facts about an outline that the reader knows. -/
inductive Traced (document : List Char) : Written → Prop
  | absent (location : Loc) : Traced document (absent location)
  | scalar {value : Value} {mark : Mark} (stands : mark.Stands document)
      (reads : parseScalar mark.text = .ok value) : Traced document (scalar value mark)
  | folded (value : Value) {location : Loc} {skipped : List Char} (header : Char)
      (indicator : header = '|' ∨ header = '>')
      (stands : StandsAt document (location.start + byteLength skipped) [header])
      (hidden : skipped ≠ []) : Traced document (folded value location skipped)
  | flowSequence {values : List Written} {mark : Mark} (stands : mark.Stands document)
      (whole : mark.padding = []) (traced : ∀ value ∈ values, Traced document value) :
      Traced document (flowSequence values mark)
  | flowMapping {entries : List (WrittenKey × Written)} {mark : Mark}
      (stands : mark.Stands document) (whole : mark.padding = [])
      (keys : ∀ entry ∈ entries, entry.1.Stands document)
      (traced : ∀ entry ∈ entries, Traced document entry.2) :
      Traced document (flowMapping entries mark)
  | sequence {values : List Written} {location : Loc}
      (dash : StandsAt document location.start ['-'])
      (stop : location.stop =
        (values.getLast?.map fun value => value.expand.nodeEnd).getD location.start)
      (whole : ∀ value ∈ values, value.Whole) (traced : ∀ value ∈ values, Traced document value) :
      Traced document (sequence values location)
  | mapping {entries : List (WrittenKey × Written)} {location : Loc} {skipped : List Char}
      (first : ∀ entry ∈ entries.head?, entry.1.mark.start = location.start + byteLength skipped)
      (stop : location.stop =
        (entries.getLast?.map fun entry => entry.2.expand.nodeEnd).getD location.start)
      (keys : ∀ entry ∈ entries, entry.1.Stands document)
      (whole : ∀ entry ∈ entries, entry.2.Whole ∨ entry.2 = absent entry.1.mark.location)
      (traced : ∀ entry ∈ entries, Traced document entry.2) :
      Traced document (mapping entries location skipped)
  | reference {target : Written} {inFlow : Bool} {mark : Mark} (stands : mark.Stands document)
      (star : mark.text.head? = some '*') (traced : Traced document target)
      (shallow : inFlow = false → target.expand.nodeDepth ≤ maxAliasDepth)
      (earlier : inFlow = true → target.expand.location.start < mark.location.start) :
      Traced document (reference target inFlow mark)

mutual

/-- How many nodes the aliases of an outline add to it. -/
def work : Written → Nat
  | absent _ | scalar _ _ | folded _ _ _ => 0
  | flowSequence values _ | sequence values _ => valuesWork values
  | flowMapping entries _ | mapping entries _ _ => entriesWork entries
  | reference target _ _ => target.expand.nodeCount

def valuesWork : List Written → Nat
  | [] => 0
  | value :: rest => value.work + valuesWork rest

def entriesWork : List (WrittenKey × Written) → Nat
  | [] => 0
  | (_, value) :: rest => value.work + entriesWork rest

end

end Written

/-- What is known of the anchors: their outlines are traced and start before an offset. -/
def AnchorsTraced (document : List Char) (bound : Nat) (anchors : List (String × Written)) : Prop :=
  ∀ anchor ∈ anchors, anchor.2.Traced document ∧ anchor.2.expand.location.start < bound

theorem lookup_expandAnchors (name : String) (anchors : List (String × Written)) :
    (expandAnchors anchors).lookup name = (anchors.lookup name).map Written.expand := by
  induction anchors with
  | nil => rfl
  | cons anchor anchors ih =>
      obtain ⟨first, target⟩ := anchor
      change List.lookup name ((first, target.expand) :: expandAnchors anchors) = _
      rw [List.lookup_cons, List.lookup_cons]
      cases name == first with
      | true => rfl
      | false => exact ih

/-- The anchor that an alias refers to. -/
theorem exists_anchor {name : String} {anchors : List (String × Written)} {node : YamlNode}
    (h : (expandAnchors anchors).lookup name = some node) :
    ∃ target, anchors.lookup name = some target ∧ target.expand = node ∧
      (name, target) ∈ anchors := by
  rw [lookup_expandAnchors] at h
  obtain ⟨target, htarget, rfl⟩ := Option.map_eq_some_iff.mp h
  exact ⟨target, htarget, rfl, mem_of_lookup htarget⟩

namespace FlowReader

/-- A text that the reader has passed. -/
structure Passed (reader : FlowReader) (text : List Char) (next : FlowReader) : Prop where
  split : reader.text = text ++ next.text
  pos : next.pos = reader.pos + byteLength text

variable {reader middle next : FlowReader} {text more : List Char}

theorem Passed.trans (h : reader.Passed text middle) (h' : middle.Passed more next) :
    reader.Passed (text ++ more) next where
  split := by rw [h.split, h'.split, List.append_assoc]
  pos := by rw [h'.pos, h.pos, byteLength_append, Nat.add_assoc]

theorem passed_advance (h : text <+: reader.text) : reader.Passed text (reader.advance text) where
  split := by
    obtain ⟨rest, hrest⟩ := h
    rw [advance, ← hrest, List.drop_left]
  pos := rfl

theorem passed_ws (reader : FlowReader) :
    reader.Passed (reader.text.takeWhile isWhitespaceChar) reader.ws :=
  passed_advance (List.takeWhile_prefix _)

theorem passed_head {c : Char} (h : reader.text.head? = some c) :
    reader.Passed [c] (reader.advance [c]) := by
  refine passed_advance ?_
  cases htext : reader.text with
  | nil =>
      rw [htext] at h
      cases h
  | cons d rest =>
      rw [htext] at h
      cases h
      exact ⟨rest, rfl⟩

theorem passed_take {expected : Char} (h : reader.take expected = some next) :
    reader.Passed [expected] next := by
  rw [take] at h
  split at h
  · next hhead =>
      cases h
      exact passed_head hhead
  · cases h

theorem aliasWork_take {expected : Char} (h : reader.take expected = some next) :
    next.aliasWork = reader.aliasWork := by
  rw [take] at h
  split at h
  · cases h
    rfl
  · cases h

/-- Behind white space a text starts solid. -/
theorem startsSolid_ws {c : Char} {rest : List Char} (h : reader.ws.text = c :: rest) :
    isWhitespaceChar c = false := by
  have hdrop : reader.ws.text = reader.text.dropWhile isWhitespaceChar := by
    change reader.text.drop (reader.text.takeWhile isWhitespaceChar).length = _
    exact drop_length_takeWhile _ _
  have hhead := List.head?_dropWhile_not isWhitespaceChar reader.text
  rw [← hdrop, h] at hhead
  exact hhead

/-- What is behind a text that was passed starts with a stop. -/
theorem scalarLength_stop (stops : List Char) (quote : Option Char) (text : List Char) :
    ∀ c ∈ (text.drop (scalarLength stops quote text).length).head?, c ∈ stops := by
  fun_induction scalarLength stops quote text with
  | case1 =>
      intro c hc
      cases hc
  | case3 =>
      intro c hc
      cases hc
  | case7 _ _ _ hstop =>
      intro c hc
      cases hc
      exact hstop
  | case2 _ _ ih => exact ih
  | case4 _ _ _ _ _ _ ih => exact ih
  | case5 _ _ _ _ _ ih => exact ih
  | case6 _ _ _ ih => exact ih
  | case8 _ _ _ _ ih => exact ih

theorem scalarLength_prefix (stops : List Char) (quote : Option Char) (text : List Char) :
    scalarLength stops quote text <+: text := by
  fun_induction scalarLength stops quote text with
  | case1 => exact List.prefix_rfl
  | case3 => exact List.prefix_rfl
  | case4 _ _ _ _ _ _ ih =>
      exact List.cons_prefix_cons.mpr ⟨rfl, List.cons_prefix_cons.mpr ⟨rfl, ih⟩⟩
  | case7 => exact List.nil_prefix
  | case2 _ _ ih | case5 _ _ _ _ _ ih | case6 _ _ _ ih | case8 _ _ _ _ ih =>
      exact List.cons_prefix_cons.mpr ⟨rfl, ih⟩

end FlowReader

section Flow

variable {document : List Char} {source offset : Nat} {skipped : List Char}
  {anchors : List (String × Written)} {aliasLimit : Nat} {reader next : FlowReader}
  {text : List Char}

/-- The reader stands at its place in the document. -/
def FlowReader.Stands (document : List Char) (offset : Nat) (skipped : List Char)
    (reader : FlowReader) : Prop :=
  StandsAt document (offset + byteLength skipped + reader.pos) reader.text

theorem FlowReader.Passed.stands (h : reader.Passed text next)
    (hplace : reader.Stands document offset skipped) : next.Stands document offset skipped := by
  rw [Stands, h.split] at hplace
  rw [Stands, h.pos, ← Nat.add_assoc]
  exact hplace.right

/-- The mark of a text that the reader passed. -/
theorem flowMark_eq (h : reader.Passed text next) :
    flowMark source offset skipped reader next =
      ⟨flowLoc source offset reader.pos next.pos, skipped, trim text,
        text.rtakeWhile isWhitespaceChar⟩ := by
  have htake : reader.text.take (reader.text.length - next.text.length) = text := by
    rw [h.split, List.length_append, Nat.add_sub_cancel, List.take_left]
  rw [flowMark, htake]

theorem flowMark_stands (source : Nat) (h : reader.Passed text next) (hsolid : StartsSolid text)
    (hplace : reader.Stands document offset skipped) :
    (flowMark source offset skipped reader next).Stands document := by
  have hsplit : trim text ++ text.rtakeWhile isWhitespaceChar = text := by
    rw [trim, hsolid.trimStart]
    exact List.rdropWhile_append_rtakeWhile
  rw [flowMark_eq h]
  constructor
  · rw [FlowReader.Stands, h.split, ← hsplit, List.append_assoc] at hplace
    have hstart : Mark.start ⟨flowLoc source offset reader.pos next.pos, skipped, trim text,
        text.rtakeWhile isWhitespaceChar⟩ = offset + byteLength skipped + reader.pos := by
      change offset + reader.pos + byteLength skipped = _
      omega
    rw [hstart]
    exact hplace.left
  · change offset + next.pos = offset + reader.pos + byteLength (trim text) +
      byteLength (text.rtakeWhile isWhitespaceChar)
    have hlength := congrArg byteLength hsplit
    rw [byteLength_append] at hlength
    rw [h.pos]
    omega

/-- What is known of a part of a flow value that was read. -/
structure FlowTraced (aliasLimit : Nat) (reader next : FlowReader) (work : Nat) : Prop where
  passed : ∃ text, reader.Passed text next
  work : next.aliasWork = reader.aliasWork + work
  bounded : reader.aliasWork ≤ aliasLimit → next.aliasWork ≤ aliasLimit

theorem FlowTraced.trans {middle : FlowReader} {work work' : Nat}
    (h : FlowTraced aliasLimit reader middle work)
    (h' : FlowTraced aliasLimit middle next work') :
    FlowTraced aliasLimit reader next (work + work') where
  passed := by
    obtain ⟨text, hpassed⟩ := h.passed
    obtain ⟨more, hpassed'⟩ := h'.passed
    exact ⟨text ++ more, hpassed.trans hpassed'⟩
  work := by rw [h'.work, h.work, Nat.add_assoc]
  bounded := fun hreader => h'.bounded (h.bounded hreader)

/-- Passing text without an alias adds no work. -/
theorem FlowTraced.of_passed (h : reader.Passed text next)
    (hwork : next.aliasWork = reader.aliasWork) : FlowTraced aliasLimit reader next 0 :=
  ⟨⟨text, h⟩, hwork, fun hreader => hwork ▸ hreader⟩

theorem FlowTraced.ws (reader : FlowReader) : FlowTraced aliasLimit reader reader.ws 0 :=
  .of_passed reader.passed_ws rfl

theorem FlowTraced.take {expected : Char} (h : reader.take expected = some next) :
    FlowTraced aliasLimit reader next 0 :=
  .of_passed (FlowReader.passed_take h) (FlowReader.aliasWork_take h)

theorem FlowTraced.expect {expected : Char}
    (h : flowExpect source offset reader expected = .ok next) :
    FlowTraced aliasLimit reader next 0 := by
  rw [flowExpect] at h
  split at h
  · next htake =>
      cases h
      exact (FlowTraced.ws reader).trans (.take htake)
  · cases h

/-- Where only the expected character can stand, it stands. -/
theorem flowExpect_head {expected : Char}
    (h : flowExpect source offset reader expected = .ok next)
    (honly : ∀ c ∈ reader.text.head?, c = expected) : reader.text.head? = some expected := by
  cases htext : reader.text with
  | nil =>
      have hend : reader.ws.text = [] := by
        change reader.text.drop _ = []
        rw [htext, List.drop_nil]
      rw [flowExpect, FlowReader.take, hend] at h
      cases h
  | cons c rest =>
      rw [htext] at honly
      exact congrArg some (honly c rfl)

/-- A scalar text is passed as far as it goes, and is not empty. -/
theorem flowScalarText_eq_ok {stops : List Char}
    (h : flowScalarText source offset reader stops = .ok (text, next)) :
    text = FlowReader.scalarLength stops none reader.text ∧ text ≠ [] ∧
      next = reader.advance text ∧ reader.Passed text next := by
  have hprefix := FlowReader.scalarLength_prefix stops none reader.text
  rw [flowScalarText] at h
  cases hscan : FlowReader.scalarLength stops none reader.text with
  | nil =>
      rw [hscan] at h
      cases h
  | cons c rest =>
      rw [hscan] at h hprefix
      cases h
      exact ⟨rfl, List.cons_ne_nil _ _, rfl, FlowReader.passed_advance hprefix⟩

/-- Text that was passed from behind white space on starts solid. -/
theorem FlowReader.Passed.startsSolid (h : reader.ws.Passed text next) (hne : text ≠ []) :
    StartsSolid text := by
  cases text with
  | nil => exact absurd rfl hne
  | cons c text => exact ⟨c, text, rfl, FlowReader.startsSolid_ws h.split⟩

theorem eq_cons_tail {c : Char} {text : List Char} (h : text.head? = some c) :
    text = c :: text.tail := by
  cases text with
  | nil => cases h
  | cons d text =>
      cases h
      rfl

theorem eq_cons_of_stripStart {c : Char} {rest : List Char}
    (h : stripStart [c] text = some rest) : text = c :: rest := by
  rw [stripStart] at h
  split at h
  · next hprefix =>
      obtain ⟨tail, rfl⟩ := List.isPrefixOf_iff_prefix.mp hprefix
      cases h
      rfl
  · cases h

/-- A scalar or an alias in a flow value has an outline. -/
theorem exists_outlineFlowScalar {node : YamlNode}
    (hplace : reader.ws.Stands document offset skipped)
    (hanchors : AnchorsTraced document offset anchors)
    (h : flowScalar source offset (expandAnchors anchors) aliasLimit reader.ws = .ok (node, next)) :
    ∃ value, outlineFlowScalar source offset skipped anchors aliasLimit reader.ws =
        some (value, next) ∧ value.expand = node ∧ value.Traced document ∧
      FlowTraced aliasLimit reader.ws next value.work := by
  have hrun := h
  rw [flowScalar] at h
  obtain ⟨⟨raw, behind⟩, htext, h⟩ := bind_eq_ok.mp h
  obtain ⟨-, hne, hbehind, hpassed⟩ := flowScalarText_eq_ok htext
  have hwork : behind.aliasWork = reader.ws.aliasWork := by rw [hbehind]; rfl
  have hsolid := hpassed.startsSolid hne
  cases hstrip : stripStart ['*'] (trim raw) with
  | some name =>
      simp only [hstrip] at h
      cases hlookup : (expandAnchors anchors).lookup (String.ofList name) with
      | none =>
          rw [hlookup] at h
          cases h
      | some anchored =>
          obtain ⟨target, htarget, rfl, hmem⟩ := exists_anchor hlookup
          simp only [hlookup] at h
          split at h
          · cases h
          · next hlimit =>
              cases h
              have hnext : reader.ws.Passed raw
                  { behind with aliasWork := behind.aliasWork + target.expand.nodeCount } :=
                ⟨hpassed.split, hpassed.pos⟩
              have hmark := flowMark_stands source hnext hsolid hplace
              obtain ⟨htraced, hearlier⟩ := hanchors _ hmem
              refine ⟨.reference target true (flowMark source offset skipped reader.ws _), ?_,
                if_pos rfl, .reference hmark ?_ htraced (fun h => by cases h) fun _ => ?_,
                ⟨raw, hnext⟩, ?_, fun _ => Nat.not_lt.mp hlimit⟩
              · rw [outlineFlowScalar, hrun]
                simp only [flowMark_eq hnext, hstrip, htarget]
                rfl
              · rw [flowMark_eq hnext]
                change (trim raw).head? = some '*'
                rw [eq_cons_of_stripStart hstrip]
                rfl
              · rw [flowMark_eq hnext]
                exact Nat.lt_of_lt_of_le hearlier (Nat.le_add_right _ _)
              · exact congrArg (· + _) hwork
  | none =>
      simp only [hstrip] at h
      cases hscalar : parseScalar (trim raw) with
      | error message =>
          rw [hscalar] at h
          cases h
      | ok value =>
          rw [hscalar] at h
          cases h
          have hmark := flowMark_stands source hpassed hsolid hplace
          refine ⟨.scalar value (flowMark source offset skipped reader.ws next), ?_, ?_,
            .scalar hmark ?_, .of_passed hpassed hwork⟩
          · rw [outlineFlowScalar, hrun]
            simp only [flowMark_eq hpassed, hstrip]
          · rw [flowMark_eq hpassed]
            rfl
          · rw [flowMark_eq hpassed]
            exact hscalar

theorem exists_outlineFlowKey {seen : List (String × Loc)} {name : String} {location : Loc}
    (hplace : reader.ws.Stands document offset skipped)
    (h : flowKey source offset seen reader.ws = .ok (name, location, next)) :
    ∃ key, outlineFlowKey source offset skipped seen reader.ws = some (key, next) ∧
      key.name = name ∧ key.mark.location = location ∧ key.Stands document ∧
      FlowTraced aliasLimit reader.ws next 0 := by
  have hrun := h
  rw [flowKey] at h
  obtain ⟨⟨raw, behind⟩, htext, h⟩ := bind_eq_ok.mp h
  obtain ⟨hraw, hne, hbehind, hpassed⟩ := flowScalarText_eq_ok htext
  have hwork : behind.aliasWork = reader.ws.aliasWork := by rw [hbehind]; rfl
  have hsolid := hpassed.startsSolid hne
  simp only at h
  cases hkey : parseKey (trim raw) with
  | error message =>
      rw [hkey] at h
      cases h
  | ok key =>
      simp only [hkey] at h
      split at h
      · cases h
      · split at h
        · cases h
        · obtain ⟨colon, hcolon, h⟩ := bind_eq_ok.mp h
          cases h
          have hmark := flowMark_stands source hpassed hsolid hplace
          have hstop : behind.text.head? = some ':' := by
            have hstops := FlowReader.scalarLength_stop [':'] none reader.ws.text
            rw [← hraw, hpassed.split, List.drop_left] at hstops
            exact flowExpect_head hcolon fun c hc => List.mem_singleton.mp (hstops c hc)
          refine ⟨⟨name, flowMark source offset skipped reader.ws behind⟩, ?_, rfl, ?_,
            ⟨hmark.text, ?_, ?_, 0, Nat.zero_le _, ?_⟩,
            (FlowTraced.of_passed hpassed hwork).trans (.expect hcolon)⟩
          · rw [outlineFlowKey, hrun]
            simp only [← hraw, ← hbehind]
          · rw [flowMark_eq hpassed]
          · have hbehind := hpassed.stands hplace
            rw [FlowReader.Stands, eq_cons_tail hstop, ← List.singleton_append] at hbehind
            have hends := hmark.stop
            convert hbehind.left using 1
            rw [flowMark_eq hpassed] at hends ⊢
            simp only [WrittenKey.colon, Mark.start, flowLoc] at hends ⊢
            omega
          · rw [flowMark_eq hpassed]
            exact hkey
          · exact hmark.stop

variable (document source offset skipped anchors aliasLimit)

/-- Every value that the reader reads with some fuel has a traced outline. -/
def FollowsValues (fuel : Nat) : Prop :=
  ∀ {reader next : FlowReader} {node : YamlNode}, reader.Stands document offset skipped →
    flowValue source offset (expandAnchors anchors) aliasLimit fuel reader = .ok (node, next) →
    ∃ value, outlineFlow source offset skipped anchors aliasLimit fuel reader =
        some (value, next) ∧ value.expand = node ∧ value.Traced document ∧
      FlowTraced aliasLimit reader next value.work

/-- The same for the items behind an opening bracket. -/
def FollowsItems (fuel : Nat) : Prop :=
  ∀ {reader next : FlowReader} {nodes : List YamlNode}, reader.Stands document offset skipped →
    flowItems source offset (expandAnchors anchors) aliasLimit fuel reader = .ok (nodes, next) →
    ∃ values, outlineFlowItems source offset skipped anchors aliasLimit fuel reader =
        some (values, next) ∧ Written.expandValues values = nodes ∧
      (∀ value ∈ values, value.Traced document) ∧
      FlowTraced aliasLimit reader next (Written.valuesWork values) ∧
      ∃ text, reader.Passed (text ++ [']']) next

/-- The same for the entries behind an opening brace. -/
def FollowsEntries (fuel : Nat) : Prop :=
  ∀ {seen : List (String × Loc)} {reader next : FlowReader}
    {nodes : List (String × Loc × YamlNode)}, reader.Stands document offset skipped →
    flowEntries source offset (expandAnchors anchors) aliasLimit fuel seen reader =
      .ok (nodes, next) →
    ∃ entries, outlineFlowEntries source offset skipped anchors aliasLimit fuel seen reader =
        some (entries, next) ∧ Written.expandEntries entries = nodes ∧
      (∀ entry ∈ entries, entry.1.Stands document) ∧
      (∀ entry ∈ entries, entry.2.Traced document) ∧
      FlowTraced aliasLimit reader next (Written.entriesWork entries) ∧
      ∃ text, reader.Passed (text ++ ['\x7d']) next

variable {document source offset skipped anchors aliasLimit}

/-- A collection between brackets is passed as a whole, without white space behind it. -/
theorem flowMark_brackets (source : Nat) {opening closing : Char}
    (h : reader.ws.text.head? = some opening) (hclosing : isWhitespaceChar closing = false)
    (hpassed : (reader.ws.advance [opening]).Passed (text ++ [closing]) next)
    (hplace : reader.ws.Stands document offset skipped) :
    (flowMark source offset skipped reader.ws next).Stands document ∧
      (flowMark source offset skipped reader.ws next).padding = [] := by
  have hwhole := (FlowReader.passed_head h).trans hpassed
  refine ⟨flowMark_stands source hwhole (hwhole.startsSolid (List.cons_ne_nil _ _)) hplace, ?_⟩
  rw [flowMark_eq hwhole, ← List.append_assoc]
  exact List.rtakeWhile_concat_neg _ _ _ (by rw [hclosing]; exact Bool.false_ne_true)

/-- What starts with no bracket is outlined as a scalar. -/
theorem outlineFlow_scalar {fuel : Nat} (hbracket : reader.ws.text.head? ≠ some '[')
    (hbrace : reader.ws.text.head? ≠ some '\x7b') :
    outlineFlow source offset skipped anchors aliasLimit (fuel + 1) reader =
      outlineFlowScalar source offset skipped anchors aliasLimit reader.ws := by
  rw [outlineFlow.eq_def]
  dsimp only
  split
  · next hhead => exact absurd hhead hbracket
  · next hhead => exact absurd hhead hbrace
  · rfl

theorem followsValues_succ {fuel : Nat} (hanchors : AnchorsTraced document offset anchors)
    (hitems : FollowsItems document source offset skipped anchors aliasLimit fuel)
    (hentries : FollowsEntries document source offset skipped anchors aliasLimit fuel) :
    FollowsValues document source offset skipped anchors aliasLimit (fuel + 1) := by
  intro reader next node hplace h
  have hws := reader.passed_ws.stands hplace
  rw [flowValue.eq_def] at h
  simp only at h
  split at h
  · next hhead =>
      obtain ⟨⟨nodes, behind⟩, hread, h⟩ := bind_eq_ok.mp h
      cases h
      have hopen := FlowReader.passed_head hhead
      obtain ⟨values, hvalues, rfl, htraced, hflow, text, hpassed⟩ :=
        hitems (hopen.stands hws) hread
      obtain ⟨hmark, hpadding⟩ := flowMark_brackets source hhead (by decide) hpassed hws
      refine ⟨.flowSequence values (flowMark source offset skipped reader.ws behind), ?_, ?_,
        .flowSequence hmark hpadding htraced, ?_⟩
      · rw [outlineFlow.eq_def]
        simp only [hhead, hvalues, Option.map_some]
      · rw [flowMark_eq (hopen.trans hpassed)]
        rfl
      · have hflow := (FlowTraced.ws reader).trans
          ((FlowTraced.of_passed hopen rfl).trans hflow)
        rwa [Nat.zero_add, Nat.zero_add] at hflow
  · next hhead =>
      obtain ⟨⟨nodes, behind⟩, hread, h⟩ := bind_eq_ok.mp h
      cases h
      have hopen := FlowReader.passed_head hhead
      obtain ⟨entries, hvalues, rfl, hkeys, htraced, hflow, text, hpassed⟩ :=
        hentries (hopen.stands hws) hread
      obtain ⟨hmark, hpadding⟩ := flowMark_brackets source hhead (by decide) hpassed hws
      refine ⟨.flowMapping entries (flowMark source offset skipped reader.ws behind), ?_, ?_,
        .flowMapping hmark hpadding hkeys htraced, ?_⟩
      · rw [outlineFlow.eq_def]
        simp only [hhead, hvalues, Option.map_some]
      · rw [flowMark_eq (hopen.trans hpassed)]
        rfl
      · have hflow := (FlowTraced.ws reader).trans
          ((FlowTraced.of_passed hopen rfl).trans hflow)
        rwa [Nat.zero_add, Nat.zero_add] at hflow
  · next hbracket hbrace =>
      obtain ⟨value, hvalue, hexpand, htraced, hflow⟩ := exists_outlineFlowScalar hws hanchors h
      refine ⟨value, ?_, hexpand, htraced, ?_⟩
      · rw [outlineFlow_scalar hbracket hbrace]
        exact hvalue
      · have hflow := (FlowTraced.ws reader).trans hflow
        rwa [Nat.zero_add] at hflow

theorem followsItems_succ {fuel : Nat}
    (hvalues : FollowsValues document source offset skipped anchors aliasLimit fuel)
    (hitems : FollowsItems document source offset skipped anchors aliasLimit fuel) :
    FollowsItems document source offset skipped anchors aliasLimit (fuel + 1) := by
  intro reader next nodes hplace h
  have hws := reader.passed_ws.stands hplace
  rw [flowItems.eq_def] at h
  rw [outlineFlowItems.eq_def]
  simp only at h ⊢
  cases hclose : reader.ws.take ']' with
  | some behind =>
      rw [hclose] at h
      cases h
      refine ⟨[], rfl, rfl, fun _ h => (List.not_mem_nil h).elim, ?_,
        reader.text.takeWhile isWhitespaceChar, ?_⟩
      · exact (FlowTraced.ws reader).trans (.take hclose)
      · exact reader.passed_ws.trans (FlowReader.passed_take hclose)
  | none =>
      simp only [hclose] at h ⊢
      obtain ⟨⟨node, middle⟩, hread, h⟩ := bind_eq_ok.mp h
      obtain ⟨value, hvalue, rfl, htraced, hflow⟩ := hvalues hws hread
      have hbefore := (FlowTraced.ws reader).trans hflow
      obtain ⟨front, hfront⟩ := hbefore.passed
      rw [Nat.zero_add] at hbefore
      simp only [hvalue, Option.bind_eq_bind, Option.bind_some] at h ⊢
      cases hlast : middle.ws.take ']' with
      | some behind =>
          simp only [hlast] at h ⊢
          cases h
          have hend : FlowTraced aliasLimit middle next 0 :=
            (FlowTraced.ws middle).trans (.take hlast)
          refine ⟨[value], rfl, rfl, ?_, ?_, front ++ middle.text.takeWhile isWhitespaceChar, ?_⟩
          · exact fun other hmem => List.mem_singleton.mp hmem ▸ htraced
          · exact hbefore.trans hend
          · have hpassed := hfront.trans (middle.passed_ws.trans (FlowReader.passed_take hlast))
            rwa [← List.append_assoc] at hpassed
      | none =>
          simp only [hlast] at h ⊢
          obtain ⟨comma, hcomma, h⟩ := bind_eq_ok.mp h
          obtain ⟨⟨rest, behind⟩, hrest, h⟩ := bind_eq_ok.mp h
          cases h
          have hexpect : FlowTraced aliasLimit middle comma 0 :=
            (FlowTraced.ws middle).trans (.expect hcomma)
          have hmiddle := hbefore.trans hexpect
          obtain ⟨passed, hpassed⟩ := hmiddle.passed
          obtain ⟨values, hread', rfl, htraced', hflow', text, htext⟩ :=
            hitems (hpassed.stands hplace) hrest
          refine ⟨value :: values, ?_, rfl, List.forall_mem_cons.mpr ⟨htraced, htraced'⟩,
            hmiddle.trans hflow', passed ++ text, ?_⟩
          · simp only [hcomma, Except.toOption, Option.bind_some, hread']
          · have hwhole := hpassed.trans htext
            rwa [← List.append_assoc] at hwhole

theorem followsEntries_succ {fuel : Nat}
    (hvalues : FollowsValues document source offset skipped anchors aliasLimit fuel)
    (hentries : FollowsEntries document source offset skipped anchors aliasLimit fuel) :
    FollowsEntries document source offset skipped anchors aliasLimit (fuel + 1) := by
  intro seen reader next nodes hplace h
  have hws := reader.passed_ws.stands hplace
  rw [flowEntries.eq_def] at h
  rw [outlineFlowEntries.eq_def]
  simp only at h ⊢
  cases hclose : reader.ws.take '\x7d' with
  | some behind =>
      rw [hclose] at h
      cases h
      refine ⟨[], rfl, rfl, fun _ h => (List.not_mem_nil h).elim,
        fun _ h => (List.not_mem_nil h).elim, ?_, reader.text.takeWhile isWhitespaceChar, ?_⟩
      · exact (FlowTraced.ws reader).trans (.take hclose)
      · exact reader.passed_ws.trans (FlowReader.passed_take hclose)
  | none =>
      simp only [hclose] at h ⊢
      obtain ⟨⟨name, location, colon⟩, hname, h⟩ := bind_eq_ok.mp h
      obtain ⟨⟨node, middle⟩, hread, h⟩ := bind_eq_ok.mp h
      obtain ⟨key, hkey, rfl, rfl, hstands, hcolon⟩ := exists_outlineFlowKey hws hname
      have hkeyed := (FlowTraced.ws reader).trans hcolon
      obtain ⟨passed, hpassed⟩ := hkeyed.passed
      obtain ⟨value, hvalue, rfl, htraced, hflow⟩ := hvalues (hpassed.stands hplace) hread
      have hbefore := hkeyed.trans hflow
      obtain ⟨front, hfront⟩ := hbefore.passed
      rw [Nat.add_zero, Nat.zero_add] at hbefore
      simp only [hkey, hvalue, Option.bind_eq_bind, Option.bind_some] at h ⊢
      cases hlast : middle.ws.take '\x7d' with
      | some behind =>
          simp only [hlast] at h ⊢
          cases h
          have hend : FlowTraced aliasLimit middle next 0 :=
            (FlowTraced.ws middle).trans (.take hlast)
          refine ⟨[(key, value)], rfl, rfl, ?_, ?_, hbefore.trans hend,
            front ++ middle.text.takeWhile isWhitespaceChar, ?_⟩
          · exact fun other hmem => List.mem_singleton.mp hmem ▸ hstands
          · exact fun other hmem => List.mem_singleton.mp hmem ▸ htraced
          · have hpassed := hfront.trans (middle.passed_ws.trans (FlowReader.passed_take hlast))
            rwa [← List.append_assoc] at hpassed
      | none =>
          simp only [hlast] at h ⊢
          obtain ⟨comma, hcomma, h⟩ := bind_eq_ok.mp h
          obtain ⟨⟨rest, behind⟩, hrest, h⟩ := bind_eq_ok.mp h
          cases h
          have hexpect : FlowTraced aliasLimit middle comma 0 :=
            (FlowTraced.ws middle).trans (.expect hcomma)
          have hmiddle := hbefore.trans hexpect
          obtain ⟨passed, hpassed⟩ := hmiddle.passed
          obtain ⟨entries, hread', rfl, hkeys', htraced', hflow', text, htext⟩ :=
            hentries (hpassed.stands hplace) hrest
          refine ⟨(key, value) :: entries, ?_, rfl, List.forall_mem_cons.mpr ⟨hstands, hkeys'⟩,
            List.forall_mem_cons.mpr ⟨htraced, htraced'⟩, hmiddle.trans hflow',
            passed ++ text, ?_⟩
          · simp only [hcomma, Except.toOption, Option.bind_some, hread']
          · have hwhole := hpassed.trans htext
            rwa [← List.append_assoc] at hwhole

theorem exists_outlineFlows (source : Nat) (skipped : List Char) (aliasLimit : Nat)
    (hanchors : AnchorsTraced document offset anchors) (fuel : Nat) :
    FollowsValues document source offset skipped anchors aliasLimit fuel ∧
      FollowsItems document source offset skipped anchors aliasLimit fuel ∧
      FollowsEntries document source offset skipped anchors aliasLimit fuel := by
  induction fuel with
  | zero =>
      refine ⟨fun _ h => ?_, fun _ h => ?_, fun _ h => ?_⟩
      · rw [flowValue.eq_def] at h
        cases h
      · rw [flowItems.eq_def] at h
        cases h
      · rw [flowEntries.eq_def] at h
        cases h
  | succ fuel ih =>
      obtain ⟨hvalues, hitems, hentries⟩ := ih
      exact ⟨followsValues_succ hanchors hitems hentries, followsItems_succ hvalues hitems,
        followsEntries_succ hvalues hentries⟩

/-- A flow value on a line has a traced outline, and its aliases stay within the limit. -/
theorem exists_outlineFlow {node : YamlNode} {added : Nat}
    (hanchors : AnchorsTraced document offset anchors)
    (hplace : StandsAt document (offset + byteLength skipped) text)
    (h : parseFlow source offset (expandAnchors anchors) aliasLimit text = .ok (node, added)) :
    ∃ value flow, outlineFlow source offset skipped anchors aliasLimit (2 * text.length + 2)
        ⟨text, 0, 0⟩ = some (value, flow) ∧ value.expand = node ∧ value.Traced document ∧
      flow.aliasWork = added ∧ value.work = added ∧ added ≤ aliasLimit := by
  rw [parseFlow] at h
  obtain ⟨⟨found, flow⟩, hread, h⟩ := bind_eq_ok.mp h
  simp only at h
  split at h
  · cases h
  · cases h
    have hvalues := @(exists_outlineFlows source skipped aliasLimit hanchors
      (2 * text.length + 2)).1
    have hstands : FlowReader.Stands document offset skipped ⟨text, 0, 0⟩ := hplace
    obtain ⟨value, hvalue, rfl, htraced, hflow⟩ := hvalues hstands hread
    have hwork : flow.aliasWork = value.work := by
      rw [hflow.work]
      exact Nat.zero_add _
    exact ⟨value, flow, hvalue, rfl, htraced, rfl, hwork.symm, hflow.bounded (Nat.zero_le _)⟩

/-- There is no white space in front of a bracket. -/
theorem ws_bracket (hhead : text.head? = some '[' ∨ text.head? = some '\x7b') :
    FlowReader.ws ⟨text, 0, 0⟩ = ⟨text, 0, 0⟩ := by
  have hblank : text.takeWhile isWhitespaceChar = [] := by
    cases text with
    | nil => rfl
    | cons c rest => rcases hhead with hhead | hhead <;> cases hhead <;> rfl
  change FlowReader.advance ⟨text, 0, 0⟩ (text.takeWhile isWhitespaceChar) = _
  rw [hblank]
  rfl

/-- No white space behind a value in brackets is taken in. -/
theorem outlineFlow_whole {fuel : Nat} {value : Written} {flow : FlowReader}
    (hhead : text.head? = some '[' ∨ text.head? = some '\x7b')
    (h : outlineFlow source offset skipped anchors aliasLimit fuel ⟨text, 0, 0⟩ =
      some (value, flow)) (htraced : value.Traced document) : value.Whole := by
  cases fuel with
  | zero =>
      rw [outlineFlow.eq_def] at h
      cases h
  | succ fuel =>
      rw [outlineFlow.eq_def] at h
      simp only [ws_bracket hhead] at h
      rcases hhead with hhead | hhead
      · simp only [hhead] at h
        obtain ⟨⟨values, next⟩, -, h⟩ := Option.map_eq_some_iff.mp h
        cases h
        cases htraced with
        | flowSequence _ whole _ => exact whole
      · simp only [hhead] at h
        obtain ⟨⟨entries, next⟩, -, h⟩ := Option.map_eq_some_iff.mp h
        cases h
        cases htraced with
        | flowMapping _ whole _ _ => exact whole

/-- A value in brackets is located where its text starts. -/
theorem parseFlow_start {nodes : List (String × YamlNode)} {node : YamlNode} {added : Nat}
    (hhead : text.head? = some '[' ∨ text.head? = some '\x7b')
    (h : parseFlow source offset nodes aliasLimit text = .ok (node, added)) :
    node.location.start = offset := by
  rw [parseFlow] at h
  obtain ⟨⟨found, flow⟩, hread, h⟩ := bind_eq_ok.mp h
  simp only at h
  split at h
  · cases h
  · cases h
    rw [flowValue.eq_def] at hread
    simp only [ws_bracket hhead] at hread
    rcases hhead with hhead | hhead
    · simp only [hhead] at hread
      obtain ⟨⟨values, next⟩, -, hread⟩ := bind_eq_ok.mp hread
      cases hread
      rfl
    · simp only [hhead] at hread
      obtain ⟨⟨values, next⟩, -, hread⟩ := bind_eq_ok.mp hread
      cases hread
      rfl

end Flow

end Telora.Yaml
