import Mathlib.Logic.Relation
import Telora.Types.Metadata

/-!
# What metadata describes

A value describes a type when its layers end in one, where a link stands for what it leads
to. Decoding answers the described type, and no value that describes nothing is decoded.
-/

namespace Telora

open Library
open Filter (atTop)

instance : Nonempty TypeDescriptor := ⟨.any⟩

instance : Nonempty RuntimeValue := ⟨.int 0⟩

/-- A relation with at most one value is a function where it has one. -/
private theorem exists_function {α β : Type} [Nonempty β] {P : α → β → Prop}
    (h : ∀ {a b b'}, P a b → P a b' → b = b') : ∃ F : α → β, ∀ {a b}, P a b → b = F a :=
  ⟨fun a => Classical.epsilon (P a), fun hb => h hb (Classical.epsilon_spec ⟨_, hb⟩)⟩

namespace HeapView

section Relations

variable (view : HeapView)

/-- The content of a hidden link. -/
def LinkTo (value target : RuntimeValue) : Prop :=
  ∃ handle content, value = .upLink handle ∧ view.object handle = .ok (.upLink (some content)) ∧
    target = content.value

/-- What is left of a payload without its wrappers. -/
inductive StripsTo : RuntimeValue → RuntimeValue → Prop where
  | wrapper {value inner stripped} : view.Wraps value inner → StripsTo inner stripped →
      StripsTo value stripped
  | bare {value} : view.metaName value ≠ some "WithAttributes" → StripsTo value value

/-- The payload of a variant, which an atom `'None` has not. -/
def payload (stripped : RuntimeValue) : Option RuntimeValue :=
  if view.asAtom stripped = some "None" then none else some stripped

/-- A layer with the payloads of its variants. -/
def HasLayer (value : RuntimeValue) (layer : TypeLayer RuntimeValue (Option RuntimeValue)) :
    Prop :=
  ∃ raw, ∃ strip : RuntimeValue → RuntimeValue, view.RawLayer value raw ∧
    (∀ w ∈ raw.payloads, view.StripsTo w (strip w)) ∧
    layer = raw.map id (fun w => view.payload (strip w))

/-- The metadata describes the type. A link leads to metadata, not to another link. -/
inductive Describes : RuntimeValue → TypeDescriptor → Prop where
  | layer {value layer} {described : RuntimeValue → TypeDescriptor} : view.HasLayer value layer →
      (∀ child ∈ layer.children, Describes child (described child)) →
      Describes value (layer.map described (Option.map described)).descriptor
  | link {value target d} : view.LinkTo value target → target.isLink = false →
      Describes target d → Describes value d

end Relations

variable {view : HeapView}

section Unique

theorem LinkTo.unique {value target target' : RuntimeValue} (h : view.LinkTo value target)
    (h' : view.LinkTo value target') : target = target' := by
  obtain ⟨handle, content, rfl, hobject, rfl⟩ := h
  obtain ⟨handle', content', heq, hobject', rfl⟩ := h'
  obtain rfl := RuntimeValue.upLink.inj heq
  obtain rfl := Option.some.inj (Object.upLink.inj (Except.ok.inj (hobject.symm.trans hobject')))
  rfl

theorem LinkTo.isLink {value target : RuntimeValue} (h : view.LinkTo value target) :
    value.isLink = true := by
  obtain ⟨handle, content, rfl, -, -⟩ := h
  rfl

theorem resolve_eq_ok {value resolved : RuntimeValue} :
    view.resolveHiddenUpLink value = .ok resolved ↔
      (value.isLink = false ∧ resolved = value) ∨ view.LinkTo value resolved := by
  cases hvalue : value.isLink with
  | false =>
      have hresolve : view.resolveHiddenUpLink value = .ok value := by
        cases value <;> first | rfl | exact absurd hvalue.symm Bool.false_ne_true
      rw [hresolve]
      constructor
      · intro h
        exact .inl ⟨rfl, (Except.ok.inj h).symm⟩
      · rintro (⟨-, rfl⟩ | hlink)
        · rfl
        · exact absurd (hvalue.symm.trans hlink.isLink) Bool.false_ne_true
  | true =>
      cases value <;> first | exact absurd hvalue Bool.false_ne_true | skip
      rename_i handle
      simp only [resolveHiddenUpLink, upLink, LinkTo, Bool.true_eq_false, false_and, false_or]
      cases hobject : view.object handle with
      | error e => simp [bind, Except.bind, hobject]
      | ok object =>
          cases object with
          | upLink content =>
              cases content <;> simp [bind, Except.bind, pure, Except.pure, hobject, eq_comm]
          | _ => simp [bind, Except.bind, throw, throwThe, MonadExceptOf.throw, hobject]

theorem not_link_of_entries {value : RuntimeValue} {found : List (String × RuntimeValue)}
    (h : view.entries value = some found) : value.isLink = false := by
  cases value <;> first | rfl | cases h

theorem RawLayer.not_link {value : RuntimeValue} {raw : TypeLayer RuntimeValue RuntimeValue}
    (h : view.RawLayer value raw) : value.isLink = false := by
  cases h with
  | opaqueType h => cases value <;> first | rfl | cases h
  | inner h =>
      obtain ⟨_, _, hentries, -⟩ := h
      exact not_link_of_entries hentries
  | _ => exact not_link_of_entries (by assumption)

theorem RawLayer.unique (hview : view.DictsOrdered) {value : RuntimeValue}
    {raw raw' : TypeLayer RuntimeValue RuntimeValue} (h : view.RawLayer value raw)
    (h' : view.RawLayer value raw') : raw = raw' := by
  have hread : (view.readResolved value "").Is raw := (readResolved_is hview).mpr h
  exact hread.unique ((readResolved_is hview).mpr h')

theorem Wraps.metaName (hview : view.DictsOrdered) {value inner : RuntimeValue}
    (h : view.Wraps value inner) : view.metaName value = some "WithAttributes" := by
  obtain ⟨attributes, kind, hentries, hkind⟩ := h
  rw [metaName_eq hview, hentries]
  exact hkind

theorem Wraps.unique {value inner inner' : RuntimeValue} (h : view.Wraps value inner)
    (h' : view.Wraps value inner') : inner = inner' := by
  obtain ⟨attributes, kind, hentries, -⟩ := h
  obtain ⟨attributes', kind', hentries', -⟩ := h'
  have heq := hentries.symm.trans hentries'
  simp only [Option.some.injEq, List.cons.injEq, Prod.mk.injEq, true_and] at heq
  exact heq.2.1

theorem StripsTo.unique (hview : view.DictsOrdered) {value stripped stripped' : RuntimeValue}
    (h : view.StripsTo value stripped) (h' : view.StripsTo value stripped') :
    stripped = stripped' := by
  induction h with
  | wrapper hwraps _ ih =>
      cases h' with
      | wrapper hwraps' h' => exact ih (hwraps.unique hwraps' ▸ h')
      | bare hbare => exact absurd (hwraps.metaName hview) hbare
  | bare hbare =>
      cases h' with
      | wrapper hwraps _ => exact absurd (hwraps.metaName hview) hbare
      | bare _ => rfl

theorem HasLayer.not_link {value : RuntimeValue}
    {layer : TypeLayer RuntimeValue (Option RuntimeValue)} (h : view.HasLayer value layer) :
    value.isLink = false := by
  obtain ⟨raw, strip, hraw, -, -⟩ := h
  exact hraw.not_link

theorem HasLayer.unique (hview : view.DictsOrdered) {value : RuntimeValue}
    {layer layer' : TypeLayer RuntimeValue (Option RuntimeValue)} (h : view.HasLayer value layer)
    (h' : view.HasLayer value layer') : layer = layer' := by
  obtain ⟨raw, strip, hraw, hstrip, rfl⟩ := h
  obtain ⟨raw', strip', hraw', hstrip', rfl⟩ := h'
  obtain rfl := hraw.unique hview hraw'
  refine TypeLayer.map_congr (fun _ _ => rfl) fun w hw => ?_
  rw [(hstrip w hw).unique hview (hstrip' w hw)]

theorem map_described_congr {layer : TypeLayer RuntimeValue (Option RuntimeValue)}
    {F G : RuntimeValue → TypeDescriptor} (h : ∀ child ∈ layer.children, F child = G child) :
    layer.map F (Option.map F) = layer.map G (Option.map G) := by
  refine TypeLayer.map_congr (fun a ha => h a (List.mem_append_left _ ha)) fun w hw => ?_
  cases w with
  | none => rfl
  | some a =>
      exact congrArg some (h a (List.mem_append_right _ (List.mem_filterMap.mpr ⟨_, hw, rfl⟩)))

theorem Describes.unique (hview : view.DictsOrdered) {value : RuntimeValue}
    {d d' : TypeDescriptor} (h : view.Describes value d) (h' : view.Describes value d') :
    d = d' := by
  induction h generalizing d' with
  | layer hlayer _ ih =>
      cases h' with
      | layer hlayer' hchildren' =>
          obtain rfl := hlayer.unique hview hlayer'
          exact congrArg _ (map_described_congr fun child hmem =>
            ih child hmem (hchildren' child hmem))
      | link hlink _ _ => exact absurd (hlayer.not_link.symm.trans hlink.isLink) (by simp)
  | link hlink _ _ ih =>
      cases h' with
      | layer hlayer _ => exact absurd (hlayer.not_link.symm.trans hlink.isLink) (by simp)
      | link hlink' _ h' => exact ih (hlink.unique hlink' ▸ h')

end Unique

section Decode

variable (hview : view.DictsOrdered)

include hview

theorem stripsTo_of_strip {depth : Nat} {value stripped : RuntimeValue} {path : String}
    (h : (view.stripAttributesRef depth value path).Is stripped) :
    view.StripsTo value stripped := by
  induction depth generalizing value with
  | zero => exact absurd h Answer.not_none_is
  | succ depth ih =>
      rw [stripAttributesRef, dictNames_eq hview] at h
      cases hentries : view.entries value with
      | none =>
          rw [hentries] at h
          obtain rfl := Answer.pure_is.mp h
          refine .bare fun hname => ?_
          rw [metaName_eq hview, hentries] at hname
          cases hname
      | some found =>
          simp only [hentries, Option.map_some] at h
          split at h
          · rename_i hname
            obtain ⟨inner, hinner, h⟩ := Answer.bind_is.mp h
            exact .wrapper ((wrapperInner_is hview hentries hname).mp hinner) (ih h)
          · obtain rfl := Answer.pure_is.mp h
            exact .bare ‹_›

theorem strip_of_stripsTo {value stripped : RuntimeValue} (h : view.StripsTo value stripped) :
    ∀ᶠ depth in atTop, ∀ path, (view.stripAttributesRef depth value path).Is stripped := by
  induction h with
  | @wrapper value inner _ hwraps _ ih =>
      filter_upwards [eventually_succ ih]
      rintro _ ⟨depth, rfl, hdepth⟩ path
      obtain ⟨attributes, kind, hentries, -⟩ := id hwraps
      have hname := hwraps.metaName hview
      rw [stripAttributesRef, dictNames_eq hview, hentries, Option.map_some]
      simp only [if_pos hname]
      exact Answer.bind_is.mpr ⟨inner, (wrapperInner_is hview hentries hname).mpr hwraps,
        hdepth path⟩
  | @bare value hbare =>
      filter_upwards [eventually_succ (.of_forall fun _ => trivial)]
      rintro _ ⟨depth, rfl, -⟩ path
      rw [stripAttributesRef]
      cases view.dictNames value with
      | none => exact Answer.pure_is.mpr rfl
      | some fields =>
          simp only [if_neg hbare]
          exact Answer.pure_is.mpr rfl

omit hview in
theorem payloadRef_is {decode : RuntimeValue → String → Decoding TypeDescriptor} {depth : Nat}
    {variant : RuntimeValue} {path : String} {p : Option TypeDescriptor} :
    (view.payloadRef decode depth variant path).Is p ↔
      ∃ stripped, (view.stripAttributesRef depth variant path).Is stripped ∧
        ((view.payload stripped = none ∧ p = none) ∨
          ∃ d, view.payload stripped = some stripped ∧ (decode stripped path).Is d ∧ p = some d) := by
  rw [payloadRef, Answer.bind_is]
  refine exists_congr fun stripped => and_congr_right fun _ => ?_
  unfold payload
  split
  · simp [eq_comm]
  · rw [Answer.bind_is]
    simp [eq_comm]

/-- What is decoded is described. -/
theorem describes_of_decode {depth : Nat} {value : RuntimeValue} {path : String}
    {d : TypeDescriptor} (h : (view.decodeTypeRef depth value path).Is d) :
    view.Describes value d := by
  induction depth generalizing value path d with
  | zero => exact absurd h Answer.not_none_is
  | succ depth ih =>
      obtain ⟨resolved, hresolved, h⟩ := Answer.bind_is.mp h
      obtain ⟨raw, hraw, h⟩ := Answer.bind_is.mp h
      obtain ⟨layer, hlayer, h⟩ := Answer.bind_is.mp h
      obtain rfl := Answer.pure_is.mp h
      rw [readResolved_is hview] at hraw
      obtain ⟨htypes, hpayloads⟩ := TypeLayer.exists_of_traverse hlayer
      -- every value inside is decoded alike wherever it stands, as it describes one type
      obtain ⟨described, hdescribed⟩ :=
        exists_function fun {a b b'} (h : view.Describes a b) h' => h.unique hview h'
      obtain ⟨strip, hstrip⟩ :=
        exists_function fun {a b b'} (h : view.StripsTo a b) h' => h.unique hview h'
      have hpayload {w : RuntimeValue} {path p} (h : (view.payloadRef (view.decodeTypeRef depth)
          depth w path).Is p) : view.StripsTo w (strip w) ∧
          (∀ child ∈ view.payload (strip w), view.Describes child (described child)) ∧
          p = (view.payload (strip w)).map described := by
        obtain ⟨s, hs, hp⟩ := payloadRef_is.mp h
        have hs := stripsTo_of_strip hview hs
        obtain rfl := hstrip hs
        refine ⟨hs, ?_⟩
        obtain ⟨hnone, rfl⟩ | ⟨d, hsome, hd, rfl⟩ := hp
        · simp [hnone]
        · have hd := ih hd
          simp [hsome, ← hdescribed hd, hd]
      have hchildren : ∀ child ∈ raw.types, view.Describes child (described child) := by
        rw [← raw.types_located path]
        intro child hmem
        obtain ⟨located, hlocated, rfl⟩ := List.mem_map.mp hmem
        obtain ⟨d, hd⟩ := htypes located hlocated
        exact hdescribed (ih hd) ▸ ih hd
      have hstripped : ∀ w ∈ raw.payloads, view.StripsTo w (strip w) ∧
          ∀ child ∈ view.payload (strip w), view.Describes child (described child) := by
        rw [← raw.payloads_located path]
        intro w hmem
        obtain ⟨located, hlocated, rfl⟩ := List.mem_map.mp hmem
        obtain ⟨p, hp⟩ := hpayloads located hlocated
        exact ⟨(hpayload hp).1, (hpayload hp).2.1⟩
      have hlayer : layer = (raw.map id fun w => view.payload (strip w)).map described
          (Option.map described) := by
        rw [TypeLayer.map_map, ← TypeLayer.map_located path]
        refine hlayer.unique (TypeLayer.traverse_is _ (fun located hlocated => ?_)
          fun located hlocated => ?_)
        · obtain ⟨d, hd⟩ := htypes located hlocated
          obtain rfl := hdescribed (ih hd)
          exact hd
        · obtain ⟨p, hp⟩ := hpayloads located hlocated
          obtain rfl := (hpayload hp).2.2
          exact hp
      have hresolvedDescribes : view.Describes resolved layer.descriptor := by
        rw [hlayer]
        refine .layer ⟨raw, strip, hraw, fun w hw => (hstripped w hw).1, rfl⟩ fun child hmem => ?_
        obtain hmem | hmem := List.mem_append.mp hmem
        · rw [TypeLayer.types_map, List.map_id] at hmem
          exact hchildren child hmem
        · rw [TypeLayer.payloads_map, List.mem_filterMap] at hmem
          obtain ⟨_, hpayload, rfl⟩ := hmem
          obtain ⟨w, hw, hchild⟩ := List.mem_map.mp hpayload
          exact (hstripped w hw).2 child hchild
      obtain ⟨-, rfl⟩ | hlink := resolve_eq_ok.mp (Answer.ofExcept_is.mp hresolved)
      · exact hresolvedDescribes
      · exact .link hlink hraw.not_link hresolvedDescribes

omit hview in
/-- A link is decoded as what it leads to. -/
theorem decodeTypeRef_link {value target : RuntimeValue} (hlink : view.LinkTo value target)
    (htarget : target.isLink = false) (depth : Nat) (path : String) :
    view.decodeTypeRef (depth + 1) target path = view.decodeTypeRef (depth + 1) value path := by
  have hvalue : view.resolveHiddenUpLink value = .ok target := resolve_eq_ok.mpr (.inr hlink)
  have hsame : view.resolveHiddenUpLink target = .ok target :=
    resolve_eq_ok.mpr (.inl ⟨htarget, rfl⟩)
  rw [decodeTypeRef, decodeTypeRef, hvalue, hsame]

/-- What describes a type is decoded, at every large depth and wherever it stands. -/
theorem decode_of_describes {value : RuntimeValue} {d : TypeDescriptor}
    (h : view.Describes value d) :
    ∀ᶠ depth in atTop, ∀ path, (view.decodeTypeRef depth value path).Is d := by
  induction h with
  | @layer value layer described hlayer _ ih =>
      obtain ⟨raw, strip, hraw, hstrip, rfl⟩ := id hlayer
      have hstrips : ∀ᶠ depth in atTop, ∀ w ∈ raw.payloads, ∀ path,
          (view.stripAttributesRef depth w path).Is (strip w) :=
        eventually_forall_mem fun w hw => strip_of_stripsTo hview (hstrip w hw)
      filter_upwards [eventually_succ ((eventually_forall_mem ih).and hstrips)]
      rintro _ ⟨depth, rfl, hchildren, hstrips⟩ path
      refine Answer.bind_is.mpr ⟨value, Answer.ofExcept_is.mpr
        (resolve_eq_ok.mpr (.inl ⟨hraw.not_link, rfl⟩)), ?_⟩
      refine Answer.bind_is.mpr ⟨raw, (readResolved_is hview).mpr hraw, ?_⟩
      refine Answer.bind_is.mpr ⟨_, ?_, Answer.pure_is.mpr rfl⟩
      rw [TypeLayer.map_map, ← TypeLayer.map_located path]
      refine TypeLayer.traverse_is _ (fun located hmem => ?_) fun located hmem => ?_
      · have hmem : located.1 ∈ raw.types :=
          raw.types_located path ▸ List.mem_map_of_mem hmem
        refine hchildren located.1 (List.mem_append_left _ ?_) located.2
        rwa [TypeLayer.types_map, List.map_id]
      · have hmem : located.1 ∈ raw.payloads :=
          raw.payloads_located path ▸ List.mem_map_of_mem hmem
        refine payloadRef_is.mpr ⟨_, hstrips located.1 hmem located.2, ?_⟩
        cases hpayload : view.payload (strip located.1) with
        | none => exact .inl ⟨rfl, by simp [hpayload]⟩
        | some child =>
            have hchild : child = strip located.1 := by
              unfold payload at hpayload
              split at hpayload
              · cases hpayload
              · exact (Option.some.inj hpayload).symm
            have hmemChild : child ∈
                (raw.map id fun w => view.payload (strip w)).children := by
              refine List.mem_append_right _ (List.mem_filterMap.mpr ⟨some child, ?_, rfl⟩)
              rw [TypeLayer.payloads_map, ← hpayload]
              exact List.mem_map_of_mem hmem
            exact .inr ⟨described child, by rw [hchild],
              hchild ▸ hchildren child hmemChild located.2, by simp [hpayload]⟩
  | @link value target d hlink htarget _ ih =>
      filter_upwards [ih, Filter.eventually_gt_atTop 0] with depth hdepth hpos path
      rw [← Nat.succ_pred_eq_of_pos hpos] at hdepth ⊢
      exact (decodeTypeRef_link hlink htarget _ path) ▸ hdepth path

end Decode

end HeapView

end Telora
