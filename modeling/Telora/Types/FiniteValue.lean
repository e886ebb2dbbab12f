import Telora.Types.Described

/-!
# Finite values

A finite value is a tree of arrays, tuples, tagged values and dicts that holds no hidden
link. Decoding a finite value ends, with a type or an error.
-/

namespace Telora.HeapView

open Library
open Filter (atTop)

section Finite

variable (view : HeapView)

/-- A value directly inside another one. Functions and dynamic values are not looked into. -/
inductive Inside : RuntimeValue → RuntimeValue → Prop where
  | array {handle values item} : view.object handle = .ok (.array values) → item ∈ values →
      Inside item.value (.array handle)
  | tuple {handle values item} : view.object handle = .ok (.tuple values) → item ∈ values →
      Inside item.value (.tuple handle)
  | tag {handle tag payload} : view.object handle = .ok (.tagged tag payload) →
      Inside tag.value (.tagged handle)
  | payload {handle tag payload} : view.object handle = .ok (.tagged tag payload) →
      Inside payload.value (.tagged handle)
  | dict {handle shape values item} : view.object handle = .ok (.dict shape values) →
      item ∈ values → Inside item.value (.dict handle)

/-- The handle of a value names an object of its kind, as in every heap. -/
def Readable : RuntimeValue → Prop
  | .nativeType handle => ∃ nativeType, view.object handle = .ok (.nativeType nativeType)
  | .opaqueValue handle => ∃ value, view.object handle = .ok (.opaqueValue value)
  | .array handle => ∃ values, view.object handle = .ok (.array values)
  | .tuple handle => ∃ values, view.object handle = .ok (.tuple values)
  | .tagged handle => ∃ tag payload, view.object handle = .ok (.tagged tag payload)
  | .dict handle => ∃ shape values, view.object handle = .ok (.dict shape values)
  | _ => True

inductive FiniteValue : RuntimeValue → Prop where
  | mk {value} : value.isLink = false → view.Readable value →
      (∀ part, view.Inside part value → FiniteValue part) → FiniteValue value

end Finite

variable {view : HeapView} {value : RuntimeValue}

namespace FiniteValue

theorem not_link (h : view.FiniteValue value) : value.isLink = false := by
  cases h with
  | mk h _ _ => exact h

theorem readable (h : view.FiniteValue value) : view.Readable value := by
  cases h with
  | mk _ h _ => exact h

theorem inside (h : view.FiniteValue value) {part : RuntimeValue}
    (hpart : view.Inside part value) : view.FiniteValue part := by
  cases h with
  | mk _ _ h => exact h part hpart

theorem insideWithin (h : view.FiniteValue value) {part : RuntimeValue}
    (hpart : Relation.ReflTransGen view.Inside part value) : view.FiniteValue part := by
  induction hpart using Relation.ReflTransGen.head_induction_on with
  | refl => exact h
  | head hhead _ ih => exact ih.inside hhead

/-- Induction from all values inside, however deep. -/
theorem deep_induction {motive : RuntimeValue → Prop}
    (step : ∀ value, view.FiniteValue value →
      (∀ part, Relation.TransGen view.Inside part value → motive part) → motive value)
    (h : view.FiniteValue value) : motive value := by
  have hall : ∀ part, Relation.ReflTransGen view.Inside part value → motive part := by
    induction h with
    | @mk value hlink hreadable hparts ih =>
        have hbelow : ∀ part, Relation.TransGen view.Inside part value → motive part := by
          intro part hpart
          obtain ⟨next, hnext, hlast⟩ := Relation.TransGen.tail'_iff.mp hpart
          exact ih next hlast part hnext
        intro part hpart
        obtain rfl | hpart := Relation.reflTransGen_iff_eq_or_transGen.mp hpart
        · exact step _ (.mk hlink hreadable hparts) hbelow
        · exact hbelow part hpart
  exact hall value .refl

end FiniteValue

section Reading

variable (hview : view.DictsOrdered)

theorem valueKind_comes (h : value.isLink = false) : (valueKind value).Comes := by
  cases value <;> first | exact Answer.pure_comes | exact absurd h.symm Bool.false_ne_true

include hview

theorem inside_of_entries {found : List (String × RuntimeValue)}
    (h : view.entries value = some found) {entry : String × RuntimeValue} (hmem : entry ∈ found) :
    view.Inside entry.2 value := by
  obtain ⟨handle, shape, values, names, rfl, hobject, -, -, -, rfl⟩ := (entries_eq_some hview).mp h
  obtain ⟨item, hitem, heq⟩ := List.mem_map.mp (List.of_mem_zip hmem).2
  exact heq ▸ .dict hobject hitem

theorem inside_of_lookup {name : String} {item : RuntimeValue}
    (h : (view.entries value).bind (·.lookup name) = some item) : view.Inside item value := by
  obtain ⟨found, hfound, hlookup⟩ := Option.bind_eq_some_iff.mp h
  exact inside_of_entries hview hfound (mem_of_lookup hlookup)

omit hview in
theorem inside_of_arrayItems {items : List RuntimeValue} (h : view.arrayItems value = some items)
    {item : RuntimeValue} (hmem : item ∈ items) : view.Inside item value := by
  unfold arrayItems at h
  split at h
  · split at h
    · rename_i hobject
      obtain rfl := Option.some.inj h
      obtain ⟨rich, hrich, rfl⟩ := List.mem_map.mp hmem
      exact .array hobject hrich
    · cases h
  · cases h

omit hview in
theorem metaField_comes {name path : String} : (view.metaField value name path).Comes := by
  unfold metaField
  split <;> simp

omit hview in
theorem metaTag_comes {path : String} : (view.metaTag value path).Comes := by
  unfold metaTag
  split <;> simp

theorem metaItems_comes (h : view.FiniteValue value) {name path : String} :
    (view.metaItems value name path).Comes := by
  refine Answer.bind_comes metaField_comes fun sequence hsequence => ?_
  have hinside := h.inside (inside_of_lookup hview ((metaField_is hview).mp hsequence))
  refine Answer.bind_comes (valueKind_comes hinside.not_link) fun kind hkind => ?_
  split
  · rename_i harray
    subst harray
    cases sequence with
    | array handle =>
        obtain ⟨values, hobject⟩ := hinside.readable
        simp only [sequenceItems_array, arrayItems, hobject]
        exact Answer.pure_comes
    | upLink => exact absurd hkind Answer.not_none_is
    | _ => exact absurd (Answer.pure_is.mp hkind) (by simp)
  · exact Answer.throw_comes

theorem metaEntries_comes {name path : String} : (view.metaEntries value name path).Comes := by
  refine Answer.bind_comes metaField_comes fun dict hdict => ?_
  rw [dictNames_eq hview]
  cases hentries : view.entries dict with
  | none => exact Answer.throw_comes
  | some found =>
      refine Answer.mapM_comes fun name hname => ?_
      obtain ⟨⟨name, item⟩, hmem, rfl⟩ := List.mem_map.mp hname
      have hnodup : (found.map Prod.fst).Nodup :=
        (entries_sorted hview hentries).imp fun hlt => ne_of_lt hlt
      rw [dictValue_eq hview, hentries, Option.bind_some, lookup_of_mem hnodup hmem]
      exact Answer.pure_comes

theorem wrapperInner_comes (h : view.FiniteValue value) {fields : List String}
    (hfields : view.dictNames value = some fields) {path : String} :
    (view.wrapperInner value fields path).Comes := by
  unfold wrapperInner
  split
  · rename_i hwrapper
    rw [dictNames_eq hview] at hfields
    obtain ⟨found, hentries, rfl⟩ := Option.map_eq_some_iff.mp hfields
    obtain ⟨attributes, inner, kind, rfl⟩ := three_entries hwrapper
    have hattributes : view.dictValue value "attributes" = some attributes := by
      rw [dictValue_eq hview, hentries]
      rfl
    have hinner : view.dictValue value "inner" = some inner := by
      rw [dictValue_eq hview, hentries]
      rfl
    rw [hattributes, hinner]
    have hinside := h.inside (inside_of_entries hview hentries List.mem_cons_self)
    refine Answer.bind_comes (valueKind_comes hinside.not_link) fun kind _ => ?_
    split <;> simp
  · exact Answer.throw_comes

theorem readKind_comes (h : view.FiniteValue value) {kind : MetaKind} {path : String} :
    (view.readKind kind value path).Comes := by
  cases kind with
  | bound =>
      simp only [readKind]
      split
      · split
        · exact Answer.pure_comes
        · exact Answer.throw_comes
      · exact Answer.throw_comes
  | plain => exact Answer.pure_comes
  | typeOf | array | dict => exact Answer.bind_comes metaField_comes fun _ _ => Answer.pure_comes
  | atom => exact Answer.bind_comes metaTag_comes fun _ _ => Answer.pure_comes
  | tagged =>
      exact Answer.bind_comes metaTag_comes fun _ _ =>
        Answer.bind_comes metaField_comes fun _ _ => Answer.pure_comes
  | tuple => exact Answer.bind_comes (metaItems_comes hview h) fun _ _ => Answer.pure_comes
  | struct => exact Answer.bind_comes (metaEntries_comes hview) fun _ _ => Answer.pure_comes
  | enum =>
      refine Answer.bind_comes (metaEntries_comes hview) fun _ _ => ?_
      split <;> simp
  | union =>
      refine Answer.bind_comes (metaItems_comes hview h) fun _ _ => ?_
      split <;> simp
  | function =>
      exact Answer.bind_comes (metaItems_comes hview h) fun _ _ =>
        Answer.bind_comes metaField_comes fun _ _ => Answer.pure_comes

theorem readResolved_comes (h : view.FiniteValue value) {path : String} :
    (view.readResolved value path).Comes := by
  unfold readResolved
  split
  · exact Answer.pure_comes
  split
  · exact Answer.throw_comes
  rename_i fields hfields
  split
  · exact Answer.throw_comes
  split
  · exact Answer.bind_comes (wrapperInner_comes hview h hfields) fun _ _ => Answer.pure_comes
  split
  · exact Answer.throw_comes
  split
  · exact readKind_comes hview h
  · exact Answer.throw_comes

theorem Wraps.inside {inner : RuntimeValue} (h : view.Wraps value inner) :
    view.Inside inner value := by
  obtain ⟨attributes, kind, hentries, -⟩ := h
  exact inside_of_entries hview hentries (List.mem_cons_of_mem _ List.mem_cons_self)

/-- What a layer holds is inside the metadata. -/
theorem RawLayer.inside {raw : TypeLayer RuntimeValue RuntimeValue} (h : view.RawLayer value raw)
    {part : RuntimeValue} (hmem : part ∈ raw.types ∨ part ∈ raw.payloads) :
    Relation.TransGen view.Inside part value := by
  have hfirst {a : String} {x} {rest : List (String × RuntimeValue)}
      (h : view.entries value = some ((a, x) :: rest)) : view.Inside x value :=
    inside_of_entries hview h List.mem_cons_self
  have hsecond {a : String} {x} {b} {rest : List (String × RuntimeValue)}
      (h : view.entries value = some (b :: (a, x) :: rest)) : view.Inside x value :=
    inside_of_entries hview h (List.mem_cons_of_mem _ List.mem_cons_self)
  have hthird {a : String} {x} {b c} {rest : List (String × RuntimeValue)}
      (h : view.entries value = some (b :: c :: (a, x) :: rest)) : view.Inside x value :=
    inside_of_entries hview h (List.mem_cons_of_mem _ (List.mem_cons_of_mem _ List.mem_cons_self))
  cases h with
  | opaqueType | bound | plain | atom => rcases hmem with hmem | hmem <;> cases hmem
  | inner hwraps =>
      obtain rfl := List.mem_singleton.mp (hmem.resolve_right List.not_mem_nil)
      exact .single (hwraps.inside hview)
  | typeOf hentries | array hentries | dict hentries =>
      obtain rfl := List.mem_singleton.mp (hmem.resolve_right List.not_mem_nil)
      exact .single (hfirst hentries)
  | tagged hentries =>
      obtain rfl := List.mem_singleton.mp (hmem.resolve_right List.not_mem_nil)
      exact .single (hsecond hentries)
  | tuple hentries _ hitems =>
      have hpart := inside_of_arrayItems hitems (hmem.resolve_right List.not_mem_nil)
      exact .tail (.single hpart) (hfirst hentries)
  | struct hentries _ hfields =>
      obtain ⟨entry, hentry, rfl⟩ := List.mem_map.mp (hmem.resolve_right List.not_mem_nil)
      exact .tail (.single (inside_of_entries hview hfields hentry)) (hfirst hentries)
  | enum hentries _ hvariants _ =>
      obtain ⟨entry, hentry, rfl⟩ := List.mem_map.mp (hmem.resolve_left List.not_mem_nil)
      exact .tail (.single (inside_of_entries hview hvariants hentry)) (hsecond hentries)
  | union hentries _ hvariants _ =>
      have hpart := inside_of_arrayItems hvariants (hmem.resolve_right List.not_mem_nil)
      exact .tail (.single hpart) (hsecond hentries)
  | function hentries _ hparameters =>
      obtain rfl | hparameter := List.mem_cons.mp (hmem.resolve_right List.not_mem_nil)
      · exact .single (hthird hentries)
      · exact .tail (.single (inside_of_arrayItems hparameters hparameter)) (hsecond hentries)

theorem StripsTo.inside {stripped : RuntimeValue} (h : view.StripsTo value stripped) :
    Relation.ReflTransGen view.Inside stripped value := by
  induction h with
  | wrapper hwraps _ ih => exact ih.tail (hwraps.inside hview)
  | bare _ => exact .refl

end Reading

section Decoding

variable (hview : view.DictsOrdered)

include hview

theorem strip_comes (h : view.FiniteValue value) :
    ∀ᶠ depth in atTop, ∀ path, (view.stripAttributesRef depth value path).Comes := by
  induction h with
  | @mk value hlink hreadable hparts ih =>
      have hfinite : view.FiniteValue value := .mk hlink hreadable hparts
      by_cases hwraps : ∃ inner, view.Wraps value inner
      · obtain ⟨inner, hwraps⟩ := hwraps
        filter_upwards [eventually_succ (ih inner (hwraps.inside hview))]
        rintro _ ⟨depth, rfl, hdepth⟩ path
        obtain ⟨attributes, kind, hentries, -⟩ := id hwraps
        have hname := hwraps.metaName hview
        rw [stripAttributesRef, dictNames_eq hview, hentries, Option.map_some]
        simp only [if_pos hname]
        refine Answer.bind_comes (wrapperInner_comes hview hfinite ?_) fun inner' hinner => ?_
        · rw [dictNames_eq hview, hentries, Option.map_some]
        · rw [((wrapperInner_is hview hentries hname).mp hinner).unique hwraps]
          exact hdepth path
      · filter_upwards [Filter.eventually_gt_atTop 0] with depth hpos path
        rw [← Nat.succ_pred_eq_of_pos hpos, stripAttributesRef, dictNames_eq hview]
        cases hentries : view.entries value with
        | none => exact Answer.pure_comes
        | some found =>
            simp only [Option.map_some]
            split
            · rename_i hname
              refine Answer.bind_comes (wrapperInner_comes hview hfinite ?_) fun inner hinner => ?_
              · rw [dictNames_eq hview, hentries, Option.map_some]
              · exact absurd ⟨inner, (wrapperInner_is hview hentries hname).mp hinner⟩ hwraps
            · exact Answer.pure_comes

/-- Decoding a finite value ends, wherever it stands. -/
theorem decode_comes (h : view.FiniteValue value) :
    ∀ᶠ depth in atTop, ∀ path, (view.decodeTypeRef depth value path).Comes := by
  refine FiniteValue.deep_induction (motive := fun value =>
    ∀ᶠ depth in atTop, ∀ path, (view.decodeTypeRef depth value path).Comes)
    (fun value h ih => ?_) h
  have hread {depth : Nat} {path : String} (hrest : ∀ raw, view.RawLayer value raw →
      ((raw.located path).traverse (fun x => view.decodeTypeRef depth x.1 x.2)
        (fun x => view.payloadRef (view.decodeTypeRef depth) depth x.1 x.2) : Decoding _).Comes) :
      (view.decodeTypeRef (depth + 1) value path).Comes := by
    refine Answer.bind_comes Answer.ofExcept_comes fun resolved hresolved => ?_
    have hlinked := resolve_eq_ok.mp (Answer.ofExcept_is.mp hresolved)
    obtain ⟨-, rfl⟩ := hlinked.resolve_right fun hlink =>
      absurd (h.not_link.symm.trans hlink.isLink) Bool.false_ne_true
    refine Answer.bind_comes (readResolved_comes hview h) fun raw hraw => ?_
    exact Answer.bind_comes (hrest raw ((readResolved_is hview).mp hraw)) fun _ _ =>
      Answer.pure_comes
  by_cases hlayer : ∃ raw, view.RawLayer value raw
  · obtain ⟨raw, hraw⟩ := hlayer
    have htypes : ∀ᶠ depth in atTop, ∀ a ∈ raw.types, ∀ path,
        (view.decodeTypeRef depth a path).Comes :=
      eventually_forall_mem fun a ha => ih a (hraw.inside hview (.inl ha))
    have hpayloads : ∀ᶠ depth in atTop, ∀ w ∈ raw.payloads, ∀ path,
        (view.payloadRef (view.decodeTypeRef depth) depth w path).Comes := by
      refine eventually_forall_mem fun w hw => ?_
      have hinside := hraw.inside hview (.inr hw)
      have hstrip := strip_comes hview (h.insideWithin hinside.to_reflTransGen)
      by_cases hstripped : ∃ s, view.StripsTo w s
      · obtain ⟨s, hs⟩ := hstripped
        filter_upwards [hstrip, ih s (Relation.TransGen.trans_right (hs.inside hview) hinside)]
          with depth hstrip hdecode path
        refine Answer.bind_comes (hstrip path) fun s' hs' => ?_
        obtain rfl := (stripsTo_of_strip hview hs').unique hview hs
        split
        · exact Answer.pure_comes
        · exact Answer.bind_comes (hdecode path) fun _ _ => Answer.pure_comes
      · filter_upwards [hstrip] with depth hstrip path
        exact Answer.bind_comes (hstrip path) fun s hs =>
          absurd ⟨s, stripsTo_of_strip hview hs⟩ hstripped
    filter_upwards [eventually_succ (htypes.and hpayloads)]
    rintro _ ⟨depth, rfl, htypes, hpayloads⟩ path
    refine hread fun raw' hraw' => ?_
    obtain rfl := hraw'.unique hview hraw
    refine TypeLayer.traverse_comes (fun x hx => htypes x.1 ?_ x.2) fun x hx =>
      hpayloads x.1 ?_ x.2
    · exact raw'.types_located path ▸ List.mem_map_of_mem hx
    · exact raw'.payloads_located path ▸ List.mem_map_of_mem hx
  · filter_upwards [Filter.eventually_gt_atTop 0] with depth hpos path
    rw [← Nat.succ_pred_eq_of_pos hpos]
    exact hread fun raw hraw => absurd ⟨raw, hraw⟩ hlayer

end Decoding

end Telora.HeapView
