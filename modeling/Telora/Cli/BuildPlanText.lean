import Telora.Cli.BuildPlan
import Telora.Library.ExceptBind
import Telora.Library.Lists
import Telora.Library.Text

/-!
# The text of an output plan

Exactly the plans of text files with normal, different paths are written, and the text that is
written is read back as the artifacts of the plan.
-/

namespace Telora.Cli

open Library

section Acceptance

theorem named_of_part {component : List Char}
    (h : component ∉ [[], ['.'], ['.', '.']]) (hslash : '/' ∉ component)
    (hbackslash : '\\' ∉ component) : Named component := by
  simp only [List.mem_cons, List.not_mem_nil, or_false, not_or] at h
  exact ⟨h.1, h.2.1, h.2.2, hslash, hbackslash⟩

theorem normalPath_text {path : String} (h : NormalPath path) :
    path.toList ≠ [] ∧ path.toList.head? ≠ some '/' ∧ '\\' ∉ path.toList := by
  obtain ⟨components, hne, hnamed, htext⟩ := h
  have hbackslash : '\\' ∉ path.toList := by
    rw [htext, mem_intercalate_iff (by decide)]
    rintro ⟨component, hmem, hinside⟩
    exact (hnamed component hmem).noBackslash hinside
  cases components with
  | nil => exact absurd rfl hne
  | cons first rest =>
      have hfirst := hnamed first List.mem_cons_self
      cases first with
      | nil => exact absurd rfl hfirst.nonempty
      | cons c first =>
          have hstart : ∃ more, path.toList = c :: more := by
            rw [htext]
            cases rest with
            | nil => exact ⟨first, List.intercalate_singleton⟩
            | cons next rest => exact ⟨_, List.intercalate_cons_cons⟩
          obtain ⟨more, hmore⟩ := hstart
          rw [hmore] at hbackslash ⊢
          refine ⟨List.cons_ne_nil _ _, fun hslash => ?_, hbackslash⟩
          exact hfirst.noSlash (Option.some.inj hslash ▸ List.mem_cons_self)

theorem validatePath_iff {path location : String} :
    validatePath path location = .ok () ↔ NormalPath path := by
  rw [validatePath]
  constructor
  · intro h
    split at h
    · cases h
    · next hvalid =>
        simp only [not_or, Bool.not_eq_true, List.any_eq_false, decide_eq_true_eq] at hvalid
        obtain ⟨-, -, hbackslash, hparts⟩ := hvalid
        refine ⟨path.toList.splitOn '/', List.splitOn_ne_nil _ _, fun part hmem => ?_,
          (List.intercalate_splitOn '/').symm⟩
        refine named_of_part (hparts part hmem) (not_mem_of_mem_splitOn hmem) fun hinside => ?_
        rw [← @List.intercalate_splitOn _ path.toList _ _ '/',
          mem_intercalate_iff (by decide)] at hbackslash
        exact hbackslash ⟨part, hmem, hinside⟩
  · intro h
    obtain ⟨hne, hhead, hbackslash⟩ := normalPath_text h
    obtain ⟨components, hcomponents, hnamed, htext⟩ := h
    have hsplit : path.toList.splitOn '/' = components := by
      rw [htext]
      exact List.splitOn_intercalate '/' (fun c hmem => (hnamed c hmem).noSlash) hcomponents
    have hparts : ¬ (path.toList.splitOn '/').any (· ∈ [[], ['.'], ['.', '.']]) = true := by
      rw [hsplit, List.any_eq_true]
      rintro ⟨component, hmem, hbad⟩
      have hcomponent := hnamed component hmem
      rcases List.mem_cons.mp (of_decide_eq_true hbad) with hempty | hbad
      · exact hcomponent.nonempty hempty
      · rcases List.mem_cons.mp hbad with hcurrent | hbad
        · exact hcomponent.notCurrent hcurrent
        · exact hcomponent.notParent (List.mem_singleton.mp hbad)
    exact if_neg (by simp only [not_or]; exact ⟨hne, hhead, hbackslash, hparts⟩)

theorem expectDict_eq_ok {value : Value} {path : String} {fields : List String} {dict : Dict} :
    expectDict value path fields = .ok dict ↔
      ∃ values, value = .dict fields values ∧ dict = ⟨fields, values⟩ := by
  constructor
  · intro h
    rw [expectDict.eq_def] at h
    split at h
    · next names values =>
        split at h
        · cases h
        · next hfields =>
            cases h
            rw [not_ne_iff.mp hfields]
            exact ⟨values, rfl, rfl⟩
    · cases h
  · rintro ⟨values, rfl, rfl⟩
    rw [expectDict, if_neg (not_not.mpr rfl)]

theorem expectString_eq_ok {value : Value} {path text : String} :
    expectString value path = .ok text ↔ value = .string text := by
  constructor
  · intro h
    rw [expectString.eq_def] at h
    split at h
    · cases h
      rfl
    · cases h
  · rintro rfl
    rfl

theorem expectFiles_eq_ok {value : Value} {files : List Value} :
    expectFiles value = .ok files ↔ value = .array files := by
  constructor
  · intro h
    rw [expectFiles.eq_def] at h
    split at h
    · cases h
      rfl
    · cases h
  · rintro rfl
    rfl

theorem get_eq_ok {fields : List String} {values : List Value} {field : String} {index : Nat}
    (h : fields.idxOf? field = some index) {value : Value} :
    (Dict.mk fields values).get field = .ok value ↔ values[index]? = some value := by
  rw [Dict.get]
  simp only [h]
  cases values[index]? <;> simp

theorem content_index : ["content", "path"].idxOf? "content" = some 0 := by decide

theorem path_index : ["content", "path"].idxOf? "path" = some 1 := by decide

theorem record_one {value first : Value} {name : String} :
    Record value [(name, first)] ↔
      ∃ values, value = .dict [name] values ∧ values[0]? = some first := by
  refine exists_congr fun values => and_congr_right fun _ => ?_
  cases values with
  | nil => simp
  | cons a values => simp [eq_comm]

theorem record_two {value first second : Value} {name other : String} :
    Record value [(name, first), (other, second)] ↔ ∃ values, value = .dict [name, other] values ∧
      values[0]? = some first ∧ values[1]? = some second := by
  refine exists_congr fun values => and_congr_right fun _ => ?_
  cases values with
  | nil => simp
  | cons a values =>
      cases values with
      | nil => simp
      | cons b values => simp [eq_comm]

theorem readArtifact_eq_ok {index : Nat} {value : Value} {content path : String} :
    readArtifact index value = .ok (content, path) ↔
      IsTextFile value ⟨content, path⟩ ∧ NormalPath path := by
  constructor
  · intro h
    rw [readArtifact.eq_def] at h
    split at h
    · next tag payload =>
        split at h
        · cases h
        · next htag =>
            obtain ⟨file, hfile, h⟩ := bind_eq_ok.mp h
            obtain ⟨first, hfirst, h⟩ := bind_eq_ok.mp h
            obtain ⟨text, htext, h⟩ := bind_eq_ok.mp h
            obtain ⟨second, hsecond, h⟩ := bind_eq_ok.mp h
            obtain ⟨place, hplace, h⟩ := bind_eq_ok.mp h
            obtain ⟨_, hvalid, h⟩ := bind_eq_ok.mp h
            cases h
            obtain ⟨values, rfl, rfl⟩ := expectDict_eq_ok.mp hfile
            rw [get_eq_ok content_index] at hfirst
            rw [get_eq_ok path_index] at hsecond
            obtain rfl := expectString_eq_ok.mp htext
            obtain rfl := expectString_eq_ok.mp hplace
            refine ⟨⟨tag, _, rfl, not_not.mp htag, ?_⟩, validatePath_iff.mp hvalid⟩
            exact record_two.mpr ⟨values, rfl, hfirst, hsecond⟩
    · cases h
  · rintro ⟨⟨tag, payload, rfl, htag, hpayload⟩, hnormal⟩
    obtain ⟨values, rfl, hfirst, hsecond⟩ := record_two.mp hpayload
    rw [readArtifact, if_neg (not_not.mpr htag)]
    refine bind_eq_ok.mpr ⟨_, expectDict_eq_ok.mpr ⟨values, rfl, rfl⟩, ?_⟩
    refine bind_eq_ok.mpr ⟨_, (get_eq_ok content_index).mpr hfirst, ?_⟩
    refine bind_eq_ok.mpr ⟨_, rfl, ?_⟩
    refine bind_eq_ok.mpr ⟨_, (get_eq_ok path_index).mpr hsecond, ?_⟩
    refine bind_eq_ok.mpr ⟨_, rfl, ?_⟩
    exact bind_eq_ok.mpr ⟨(), validatePath_iff.mpr hnormal, rfl⟩

/-- The artifacts from an index on, each after a comma unless it is the first of all. -/
def filesText : Nat → List Artifact → List Char
  | _, [] => []
  | index, artifact :: rest =>
      (if 0 < index then [','] else []) ++ writeArtifact artifact.content artifact.path ++
        filesText (index + 1) rest

theorem writeFiles_eq_ok {files : List Value} : ∀ {index : Nat} {seen : List String}
    {output text : List Char}, writeFiles index seen output files = .ok text ↔
      ∃ artifacts, List.Forall₂ IsTextFile files artifacts ∧
        (∀ artifact ∈ artifacts, NormalPath artifact.path) ∧
        (artifacts.map (·.path)).Nodup ∧ (∀ artifact ∈ artifacts, artifact.path ∉ seen) ∧
        text = output ++ filesText index artifacts := by
  induction files with
  | nil =>
      intro index seen output text
      constructor
      · intro h
        cases h
        exact ⟨[], .nil, fun _ h => (List.not_mem_nil h).elim, List.nodup_nil,
          fun _ h => (List.not_mem_nil h).elim, (List.append_nil _).symm⟩
      · rintro ⟨artifacts, hfiles, -, -, -, rfl⟩
        cases hfiles
        rw [filesText, List.append_nil]
        rfl
  | cons value files ih =>
      intro index seen output text
      rw [writeFiles]
      constructor
      · intro h
        obtain ⟨⟨content, path⟩, hartifact, h⟩ := bind_eq_ok.mp h
        obtain ⟨hvalue, hnormal⟩ := readArtifact_eq_ok.mp hartifact
        simp only at h
        split at h
        · cases h
        · next hnew =>
            obtain ⟨artifacts, hfiles, hnormals, hnodup, hseen, rfl⟩ := ih.mp h
            refine ⟨⟨content, path⟩ :: artifacts, .cons hvalue hfiles,
              List.forall_mem_cons.mpr ⟨hnormal, hnormals⟩, ?_,
              List.forall_mem_cons.mpr ⟨hnew, fun a ha hin => ?_⟩, ?_⟩
            · rw [List.map_cons, List.nodup_cons]
              refine ⟨fun hmem => ?_, hnodup⟩
              obtain ⟨a, ha, hpath⟩ := List.mem_map.mp hmem
              exact hseen a ha (hpath ▸ List.mem_cons_self)
            · exact hseen a ha (List.mem_cons_of_mem _ hin)
            · rw [filesText, List.append_assoc, List.append_assoc]
              simp only [List.append_assoc]
      · rintro ⟨artifacts, hfiles, hnormals, hnodup, hseen, rfl⟩
        cases hfiles with
        | @cons _ artifact _ artifacts hvalue hfiles =>
            obtain ⟨hnormal, hnormals⟩ := List.forall_mem_cons.mp hnormals
            obtain ⟨hnew, hseen⟩ := List.forall_mem_cons.mp hseen
            rw [List.map_cons, List.nodup_cons] at hnodup
            refine bind_eq_ok.mpr ⟨(artifact.content, artifact.path),
              readArtifact_eq_ok.mpr ⟨hvalue, hnormal⟩, ?_⟩
            simp only
            rw [if_neg hnew]
            refine ih.mpr ⟨artifacts, hfiles, hnormals, hnodup.2, fun a ha hin => ?_, ?_⟩
            · rcases List.mem_cons.mp hin with heq | hin
              · exact hnodup.1 (heq ▸ List.mem_map_of_mem ha)
              · exact hseen a ha hin
            · rw [filesText]
              simp only [List.append_assoc]

theorem filesText_succ (index : Nat) (artifact : Artifact) (artifacts : List Artifact) :
    filesText (index + 1) (artifact :: artifacts) = ',' :: [','].intercalate
      ((artifact :: artifacts).map fun artifact =>
        writeArtifact artifact.content artifact.path) := by
  induction artifacts generalizing index artifact with
  | nil =>
      rw [filesText, if_pos (Nat.succ_pos index), List.map_singleton, List.intercalate_singleton]
      exact List.append_nil _
  | cons next artifacts ih =>
      rw [filesText, if_pos (Nat.succ_pos index), ih]
      simp only [List.map_cons, List.intercalate_cons_cons, List.cons_append, List.nil_append,
        List.append_assoc]

theorem filesText_zero (artifacts : List Artifact) : filesText 0 artifacts = [','].intercalate
    (artifacts.map fun artifact => writeArtifact artifact.content artifact.path) := by
  cases artifacts with
  | nil => rfl
  | cons artifact artifacts =>
      rw [filesText, if_neg (Nat.lt_irrefl 0), List.nil_append]
      cases artifacts with
      | nil => rw [List.map_singleton, List.intercalate_singleton]; exact List.append_nil _
      | cons next artifacts =>
          rw [filesText_succ]
          simp only [List.map_cons, List.intercalate_cons_cons, List.singleton_append,
            List.append_assoc]

/-- A plan is written exactly when it is one, as its text. -/
theorem canonicalBuildJson_eq_ok {value : Value} {text : List Char} :
    canonicalBuildJson value = .ok text ↔
      ∃ artifacts, OutputPlan value artifacts ∧ text = planText artifacts := by
  have hindex : ["files"].idxOf? "files" = some 0 := by decide
  constructor
  · intro h
    rw [canonicalBuildJson] at h
    obtain ⟨plan, hplan, hget⟩ := bind_eq_ok.mp h
    obtain ⟨first, hfirst, harray⟩ := bind_eq_ok.mp hget
    obtain ⟨files, hfiles, hwrite⟩ := bind_eq_ok.mp harray
    obtain ⟨output, houtput, htext⟩ := bind_eq_ok.mp hwrite
    obtain ⟨values, hvalue, rfl⟩ := expectDict_eq_ok.mp hplan
    obtain ⟨artifacts, hartifacts, hnormal, hnodup, -, hwritten⟩ := writeFiles_eq_ok.mp houtput
    rw [get_eq_ok hindex, expectFiles_eq_ok.mp hfiles] at hfirst
    refine ⟨artifacts, ⟨⟨files, record_one.mpr ⟨values, hvalue, hfirst⟩, hartifacts⟩, hnormal,
      hnodup⟩, ?_⟩
    rw [← pure_eq_ok.mp htext, hwritten, filesText_zero]
    unfold planText
    exact rfl
  · rintro ⟨artifacts, ⟨⟨files, hrecord, hartifacts⟩, hnormal, hnodup⟩, rfl⟩
    obtain ⟨values, hvalue, hfirst⟩ := record_one.mp hrecord
    have hdict : expectDict value "OutputPlan" ["files"] = .ok ⟨["files"], values⟩ :=
      expectDict_eq_ok.mpr ⟨values, hvalue, rfl⟩
    have hget : (Dict.mk ["files"] values).get "files" = .ok (.array files) :=
      (get_eq_ok hindex).mpr hfirst
    have hwrite : ∀ output, writeFiles 0 [] output files =
        .ok (output ++ filesText 0 artifacts) := fun output => writeFiles_eq_ok.mpr
      ⟨artifacts, hartifacts, hnormal, hnodup, fun _ _ => List.not_mem_nil, rfl⟩
    unfold planText
    rw [canonicalBuildJson, ← filesText_zero]
    refine bind_eq_ok.mpr ⟨_, hdict, ?_⟩
    refine bind_eq_ok.mpr ⟨_, hget, ?_⟩
    refine bind_eq_ok.mpr ⟨files, rfl, ?_⟩
    exact bind_eq_ok.mpr ⟨_, hwrite _, pure_eq_ok.mpr rfl⟩

end Acceptance

section Reading

open JsonReader

theorem hexQuadText_small {n : Nat} (h : n < 256) : Json.hexQuadText n =
    ['0', '0', (n / 16).digitChar, (n % 16).digitChar] := by
  rw [Json.hexQuadText]
  by_cases hsmall : n < 16
  · rw [Nat.toDigits_of_lt_base hsmall, Nat.div_eq_of_lt hsmall, Nat.mod_eq_of_lt hsmall]
    rfl
  · rw [Nat.toDigits_of_base_le (by decide) (Nat.le_of_not_lt hsmall),
      Nat.toDigits_of_lt_base (Nat.div_lt_of_lt_mul h)]
    rfl

theorem hexValue_digitChar : ∀ n < 16, hexValue n.digitChar = some n := by
  decide

/-- A letter escape is read as its character. -/
theorem readUnits_letter {letter c : Char} (h : letterEscape letter = some c) (rest : List Char) :
    readUnits ('\\' :: letter :: rest) =
      (readUnits rest).map fun read => (Utf16.encodeChar c ++ read.1, read.2) := by
  have hunicode : letter ≠ 'u' := by
    rintro rfl
    cases h
  rw [readUnits.eq_def]
  split
  · next heq => cases heq
  · next heq => cases heq
  · next heq => exact absurd (List.cons.inj (List.cons.inj heq).2).1 hunicode
  · next heq =>
      obtain ⟨rfl, rfl⟩ := List.cons.inj (List.cons.inj heq).2
      rw [h]
      rfl
  · next hletter heq =>
      obtain ⟨rfl, rfl⟩ := List.cons.inj heq
      exact (hletter letter rest rfl rfl).elim

/-- A character that needs no escape is read as itself. -/
theorem readUnits_plain {c : Char} (hquote : c ≠ '"') (hescape : c ≠ '\\')
    (hcontrol : ¬c.toNat < 0x20) (rest : List Char) :
    readUnits (c :: rest) =
      (readUnits rest).map fun read => (Utf16.encodeChar c ++ read.1, read.2) := by
  rw [readUnits.eq_def]
  split
  · next heq => cases heq
  · next heq => exact absurd (List.cons.inj heq).1 hquote
  · next heq => exact absurd (List.cons.inj heq).1 hescape
  · next heq => exact absurd (List.cons.inj heq).1 hescape
  · next heq =>
      obtain ⟨rfl, rfl⟩ := List.cons.inj heq
      rw [if_neg (by rw [not_or]; exact ⟨hescape, hcontrol⟩)]

/-- A character is read back from what is written for it. -/
theorem readUnits_writeChar (c : Char) (rest : List Char) :
    readUnits (writeChar c ++ rest) =
      (readUnits rest).map fun read => (Utf16.encodeChar c ++ read.1, read.2) := by
  rw [writeChar]
  iterate 5
    split
    · next heq =>
        rw [heq]
        exact readUnits_letter rfl rest
  split
  · next hcontrol =>
      have hsmall : c.toNat < 160 := by
        simp only [isControl, Bool.or_eq_true, Bool.and_eq_true, decide_eq_true_eq] at hcontrol
        omega
      have hquad : quad '0' '0' (c.toNat / 16).digitChar (c.toNat % 16).digitChar =
          some c.toNat := by
        have hzero : hexValue '0' = some 0 := rfl
        rw [quad, hzero, hexValue_digitChar _ (by omega), hexValue_digitChar _ (by omega)]
        simp only [Option.bind_some, Option.map_some, Option.some.injEq]
        omega
      have hunits : Utf16.encodeChar c = [c.toNat] := if_pos (by omega)
      rw [hexQuadText_small (by omega), hunits]
      change (quad '0' '0' (c.toNat / 16).digitChar (c.toNat % 16).digitChar).bind _ = _
      rw [hquad]
      rfl
  · next hquote hescape _ _ _ hcontrol =>
      refine readUnits_plain hquote hescape (fun hsmall => hcontrol ?_) rest
      simp only [isControl, Bool.or_eq_true, decide_eq_true_eq]
      exact .inl hsmall

theorem readsString_write (content : List Char) :
    ReadsString (content.flatMap writeChar) content := by
  have hunits : ∀ rest, readUnits (content.flatMap writeChar ++ '"' :: rest) =
      some (Utf16.encode content, rest) := by
    intro rest
    induction content with
    | nil => rfl
    | cons c content ih =>
        rw [List.flatMap_cons, List.append_assoc, readUnits_writeChar, ih]
        rfl
  intro rest
  rw [readString, hunits, Option.bind_some]
  change (Utf16.decode (Utf16.encode content)).map _ = _
  rw [Utf16.decode_encode]
  rfl

theorem reads_writeString (text : String) : Reads (writeString text) (.string text.toList) :=
  (readsString_write text.toList).reads

/-- A member whose key is written as it is. -/
theorem readsMember {key value : List Char} {content : JsonReader.Json}
    (hkey : key.flatMap writeChar = key) (h : Reads value content) :
    ReadsMember ('"' :: (key ++ '"' :: ':' :: value)) (key, content) :=
  ⟨key, value, rfl, (congrArg (ReadsString · key) hkey).mp (readsString_write key), h⟩

theorem artifactOpening : "\x7b\"TextFile\":\x7b\"content\":".toList =
    '{' :: '"' :: ("TextFile".toList ++ '"' :: ':' :: '{' :: '"' ::
      ("content".toList ++ ['"', ':'])) := by
  decide

theorem artifactMiddle : ",\"path\":".toList = ',' :: '"' :: ("path".toList ++ ['"', ':']) := by
  decide

theorem artifactClosing : "\x7d\x7d".toList = ['}', '}'] := by decide

theorem reads_writeArtifact (artifact : Artifact) :
    Reads (writeArtifact artifact.content artifact.path) artifact.json := by
  have hfile := reads_object (.cons
    (readsMember (show "content".toList.flatMap writeChar = "content".toList from rfl)
      (reads_writeString artifact.content)) (.cons
    (readsMember (show "path".toList.flatMap writeChar = "path".toList from rfl)
      (reads_writeString artifact.path)) .nil))
  have hartifact := reads_object (.cons
    (readsMember (show "TextFile".toList.flatMap writeChar = "TextFile".toList from rfl) hfile)
    .nil)
  refine (congrArg (Reads · artifact.json) ?_).mp hartifact
  unfold writeArtifact
  rw [artifactOpening, artifactMiddle, artifactClosing]
  simp only [List.intercalate_singleton, List.intercalate_cons_cons, List.cons_append,
    List.nil_append, List.append_assoc]

theorem planOpening : "\x7b\"files\":[".toList =
    '{' :: '"' :: ("files".toList ++ ['"', ':', '[']) := by
  decide

theorem planClosing : "]\x7d".toList = [']', '}'] := by decide

theorem reads_planText (artifacts : List Artifact) :
    Reads (planText artifacts) (planJson artifacts) := by
  have hitems : List.Forall₂ Reads
      (artifacts.map fun artifact => writeArtifact artifact.content artifact.path)
      (artifacts.map Artifact.json) := by
    induction artifacts with
    | nil => exact .nil
    | cons artifact artifacts ih => exact .cons (reads_writeArtifact artifact) ih
  have hplan := reads_object (.cons
    (readsMember (show "files".toList.flatMap writeChar = "files".toList from rfl)
      (reads_array hitems)) .nil)
  refine (congrArg (Reads · (planJson artifacts)) ?_).mp hplan
  unfold planText
  rw [planOpening, planClosing]
  simp only [List.intercalate_singleton, List.cons_append, List.nil_append, List.append_assoc]

end Reading

/-- Exactly the values that are plans are written, and what is written for a plan is JSON that is
read as its artifacts in order. -/
theorem canonicalBuildJson_exact (value : Value) :
    ((∃ text, canonicalBuildJson value = .ok text) ↔ ∃ artifacts, OutputPlan value artifacts) ∧
    ∀ text, canonicalBuildJson value = .ok text →
      ∃ artifacts, OutputPlan value artifacts ∧
        JsonReader.read text = some (planJson artifacts) := by
  constructor
  · constructor
    · rintro ⟨text, h⟩
      obtain ⟨artifacts, hplan, -⟩ := canonicalBuildJson_eq_ok.mp h
      exact ⟨artifacts, hplan⟩
    · rintro ⟨artifacts, hplan⟩
      exact ⟨planText artifacts, canonicalBuildJson_eq_ok.mpr ⟨artifacts, hplan, rfl⟩⟩
  · intro text h
    obtain ⟨artifacts, hplan, rfl⟩ := canonicalBuildJson_eq_ok.mp h
    exact ⟨artifacts, hplan, (reads_planText artifacts).whole⟩

end Telora.Cli
