import Mihomo.Lib.Region
import Mihomo.Override.Eval

/-!
# Effects of the operators and functions

Each operator and function of the evaluator works within any region that holds its inputs, and nothing
that was there before is written: those that work in place do so on a clone of their own.
-/

namespace Mihomo.Override
open Go Lib List Mapping

def Cell.refs (c : Cell) : List Nat := c.stored.filterMap Val.ref

def Within (A : Nat → Prop) (v : Val) : Prop := ∀ r, v.ref = some r → A r

def AllWithin (A : Nat → Prop) (vs : List Val) : Prop := ∀ v ∈ vs, Within A v

variable {A W K : Nat → Prop} {P : Prims} {α : Type}

theorem within_scalar (s : Scalar) : Within A (.scalar s) := nofun

variable {ref : Nat} {v node left right input : Val} {m : Mapping} {Q : α → Prop}

theorem within_arr {len : Nat} : Within A (.arr ref len) ↔ A ref := by
  simp [Within, Val.ref]

theorem within_map : Within A (.map ref) ↔ A ref := by
  simp [Within, Val.ref]

theorem Within.mono (hv : Within K v) (hsub : ∀ r, K r → A r) : Within A v :=
  fun r hr => hsub r (hv r hr)

namespace AllWithin

variable {vs ws : List Val}

theorem nil : AllWithin A [] := nofun

theorem cons {v : Val} (hv : Within A v) (hvs : AllWithin A vs) : AllWithin A (v :: vs) :=
  forall_mem_cons.mpr ⟨hv, hvs⟩

theorem singleton {v : Val} (hv : Within A v) : AllWithin A [v] := cons hv nil

theorem append (hvs : AllWithin A vs) (hws : AllWithin A ws) : AllWithin A (vs ++ ws) :=
  forall_mem_append.mpr ⟨hvs, hws⟩

theorem subset (hvs : AllWithin A vs) (hsub : ws ⊆ vs) : AllWithin A ws :=
  fun v hv => hvs v (hsub hv)

theorem mono (hvs : AllWithin K vs) (hsub : ∀ r, K r → A r) : AllWithin A vs :=
  fun v hv => (hvs v hv).mono hsub

theorem map_scalar {β : Type} (f : β → Scalar) (bs : List β) :
    AllWithin A (bs.map fun b => .scalar (f b)) := by
  intro v hv
  obtain ⟨b, -, rfl⟩ := mem_map.mp hv
  exact within_scalar _

theorem replicate_null (n : Nat) : AllWithin A (List.replicate n .null) := by
  intro v hv
  rw [eq_of_mem_replicate hv]
  exact within_scalar _

theorem refs {c : Cell} (hc : AllWithin A c.stored) : ∀ s ∈ c.refs, A s := by
  intro s hs
  obtain ⟨v, hv, hr⟩ := mem_filterMap.mp hs
  exact hc v hv s hr

end AllWithin

variable {c : Cell} {x : Except String α} {items : List Val} {as : List α}

theorem allWithin_of_refs (hc : ∀ s ∈ c.refs, A s) : AllWithin A c.stored :=
  fun v hv r hr => hc r (mem_filterMap.mpr ⟨v, hv, hr⟩)

/-! ### Maps -/

theorem Mapping.mem_values_of_lookup {key : Str} (hv : m.lookup key = some v) : v ∈ m.values :=
  mem_map.mpr ⟨⟨key, v⟩, AList.mem_lookup_iff.mp hv, rfl⟩

theorem Mapping.get_within (hm : AllWithin A m.values) (key : Str) : Within A (m.get key) := by
  unfold Mapping.get
  cases hv : m.lookup key with
  | none => exact within_scalar _
  | some v => exact hm v (mem_values_of_lookup hv)

theorem Mapping.empty_within : AllWithin A (Mapping.values ∅) := nofun

theorem Mapping.insert_within (hm : AllWithin A m.values)
    (hv : Within A v) (key : Str) : AllWithin A (Mapping.values (m.insert key v)) := by
  intro w hw
  obtain ⟨e, he, rfl⟩ := mem_map.mp hw
  cases mem_cons.mp he with
  | inl heq => subst heq; exact hv
  | inr hmem =>
    exact hm _ (mem_map.mpr ⟨e, (kerase_sublist ..).subset hmem, rfl⟩)

theorem Mapping.erase_within (hm : AllWithin A m.values) (key : Str) :
    AllWithin A (Mapping.values (m.erase key)) := by
  intro w hw
  obtain ⟨e, he, rfl⟩ := mem_map.mp hw
  exact hm _ (mem_map.mpr ⟨e, (kerase_sublist ..).subset he, rfl⟩)

theorem Mapping.map_get_within (hm : AllWithin A m.values) (keys : List Str) :
    AllWithin A (keys.map m.get) := by
  intro v hv
  obtain ⟨key, -, rfl⟩ := mem_map.mp hv
  exact get_within hm key

/-! ### Cells -/

abbrev Keeps (A W : Nat → Prop) (m : M α) (Q : α → Prop) : Prop := Lib.Keeps Cell.refs A W m Q

theorem fail_keeps (text : String) : Keeps A W (fail text) Q := .throw _

theorem scalar_keeps (s : Scalar) : Keeps A W (pure (.scalar s)) (Within A) := .pure (within_scalar s)

theorem unless_fails_keeps {c : Prop} [Decidable c] {text : String} {f : PUnit → M α} {m : M α}
    (hm : Keeps A W m Q) : Keeps A W (if c then fail text >>= f else m) Q :=
  .ite (fun _ => .throw_bind _) fun _ => hm

theorem single_keeps {m : M Val} (hm : Keeps A W m (Within A)) :
    Keeps A W (do return [← m]) (AllWithin A) := hm.bind fun _ hv => .pure (.singleton hv)

theorem liftExcept_keeps (hx : ∀ a, Q a) : Keeps A W (liftExcept x) Q := by
  cases x with
  | ok a => exact .pure (hx a)
  | error text => exact fail_keeps text

theorem readCell_keeps (ref : Nat) :
    Keeps A W (readCell ref) fun c => A ref → AllWithin A c.stored := by
  intro h hreg _
  unfold readCell
  cases hc : h[ref]? with
  | none => exact .refl h
  | some c => exact ⟨.refl h, hreg, fun hr => allWithin_of_refs (hreg.closed ref c hr hc)⟩

theorem readArray_keeps (ref len : Nat) :
    Keeps A W (readArray ref len) fun items => A ref → AllWithin A items := by
  refine (readCell_keeps ref).bind fun c hc => ?_
  cases c with
  | arr items => exact .pure fun hr => (hc hr).subset (take_subset ..)
  | map m => exact .throw _

theorem readMap_keeps (ref : Nat) :
    Keeps A W (readMap ref) fun m => A ref → AllWithin A m.values := by
  refine (readCell_keeps ref).bind fun c hc => ?_
  cases c with
  | arr items => exact .throw _
  | map m => exact .pure hc

theorem writeCell_keeps (hr : W ref) (hc : AllWithin A c.stored) :
    Keeps A W (writeCell ref c) fun _ => True := .set hr hc.refs trivial

theorem set_within (hitems : AllWithin A items) (hv : Within A v)
    (i : Nat) : AllWithin A (items.set i v) := by
  intro w hw
  cases mem_or_eq_of_mem_set hw with
  | inl hmem => exact hitems w hmem
  | inr heq => subst heq; exact hv

theorem writeItem_keeps (hr : K ref) (i : Nat) (hv : Within K v) :
    Keeps K K (writeItem ref i v) fun _ => True := by
  refine (readCell_keeps ref).bind fun c hc => ?_
  cases c with
  | arr items => exact writeCell_keeps hr (set_within (hc hr) hv i)
  | map m => exact .throw _

theorem writeKey_keeps (hr : K ref) (key : Str) (hv : Within K v) :
    Keeps K K (writeKey ref key v) fun _ => True := by
  refine (readMap_keeps ref).bind fun m hm => ?_
  exact writeCell_keeps hr (insert_within (hm hr) hv key)

theorem deleteKey_keeps (hr : K ref) (key : Str) : Keeps K K (deleteKey ref key) fun _ => True := by
  refine (readMap_keeps ref).bind fun m hm => ?_
  exact writeCell_keeps hr (erase_within (hm hr) key)

theorem newMap_keeps (hm : AllWithin A m.values) : Keeps A W (newMap m) (Within A) := by
  have halloc : Keeps A W (alloc (.map m)) A :=
    .add (fun _ => AllWithin.refs hm) fun _ hlen => hlen
  exact halloc.bind fun ref hr => .pure (within_map.mpr hr)

theorem newArray_keeps (hitems : AllWithin A items) : Keeps A W (newArray P items) (Within A) := by
  refine .add (fun h => AllWithin.refs ?_) fun h hlen => within_arr.mpr hlen
  exact hitems.append (.replicate_null _)

theorem appendNil_keeps (hr : K ref) (len : Nat) : Keeps K K (appendNil P ref len) (Within K) := by
  refine (readCell_keeps ref).bind fun c hc => ?_
  cases c with
  | map m => exact .throw _
  | arr items =>
    refine .ite (fun _ => ?_) fun _ => ?_
    · refine (writeCell_keeps hr (set_within (hc hr) (within_scalar _) len)).bind fun _ _ => ?_
      exact .pure (within_arr.mpr hr)
    · apply newArray_keeps
      exact ((hc hr).subset (take_subset ..)).append (.singleton (within_scalar _))

theorem concatM_keeps_forall {β : Type} {Q : β → Prop} {f : α → M (List β)}
    (hf : ∀ a ∈ as, Keeps A W (f a) fun bs => ∀ b ∈ bs, Q b) :
    Keeps A W (concatM as f) fun bs => ∀ b ∈ bs, Q b := by
  induction as with
  | nil => exact .pure nofun
  | cons a as ih =>
    refine (hf a mem_cons_self).bind fun bs hbs => ?_
    refine (ih fun b hb => hf b (mem_cons_of_mem _ hb)).bind fun cs hcs => ?_
    exact .pure (forall_mem_append.mpr ⟨hbs, hcs⟩)

theorem concatM_keeps {f : α → M (List Val)}
    (hf : ∀ a ∈ as, Keeps A W (f a) (AllWithin A)) : Keeps A W (concatM as f) (AllWithin A) :=
  concatM_keeps_forall hf

/-! ### Clones and trees -/

theorem depthBound_keeps : Keeps A W depthBound fun _ => True := .get fun _ _ => trivial

theorem cloneAt_keeps (depth : Nat) (v : Val) : Keeps A W (cloneAt P depth v) (Within A) := by
  induction depth generalizing v with
  | zero =>
    cases v with
    | scalar s => exact scalar_keeps s
    | arr | map => exact .throw _
  | succ depth ih =>
    cases v with
    | scalar s => exact scalar_keeps s
    | arr ref len =>
      refine (readArray_keeps ref len).bind fun items _ => ?_
      refine (Keeps.mapM' fun item _ => ih item).bind fun cloned hcloned => ?_
      exact newArray_keeps hcloned
    | map ref =>
      refine (readMap_keeps ref).bind fun m _ => ?_
      refine (Keeps.foldlM (Q := fun cloned => AllWithin A cloned.values)
        (fun cloned hcloned key _ => ?_) empty_within).bind fun cloned hcloned =>
          newMap_keeps hcloned
      exact (ih _).bind fun item hitem => .pure (insert_within hcloned hitem key)

theorem cloneOverrideValue_keeps (v : Val) : Keeps A W (cloneOverrideValue P v) (Within A) :=
  depthBound_keeps.bind fun depth _ => cloneAt_keeps depth v

theorem treeAt_keeps (depth : Nat) (v : Val) : Keeps A W (treeAt depth v) fun _ => True := by
  induction depth generalizing v with
  | zero =>
    cases v with
    | scalar s => exact .pure trivial
    | arr | map => exact .throw _
  | succ depth ih =>
    cases v with
    | scalar s => exact .pure trivial
    | arr ref len =>
      refine (readArray_keeps ref len).bind fun items _ => ?_
      exact (Keeps.mapM' fun item _ => ih item).bind fun _ _ => .pure trivial
    | map ref =>
      refine (readMap_keeps ref).bind fun m _ => ?_
      refine (Keeps.mapM' (Q := fun _ => True) fun key _ => ?_).bind fun _ _ => .pure trivial
      exact (ih _).bind fun _ _ => .pure trivial

theorem treeOf_keeps (v : Val) : Keeps A W (treeOf v) fun _ => True :=
  depthBound_keeps.bind fun depth _ => treeAt_keeps depth v

/-! ### Paths -/

theorem lookupOverridePathStream_keeps (p : Path) (hv : Within A v) :
    Keeps A W (lookupOverridePathStream p v) (AllWithin A) := by
  induction p generalizing v with
  | nil => exact .pure (.singleton hv)
  | cons segment p ih =>
    cases segment with
    | field key =>
      cases v with
      | map ref =>
        refine (readMap_keeps ref).bind fun m hm => ?_
        exact ih (get_within (hm (within_map.mp hv)) key)
      | scalar | arr => exact .pure (.singleton (within_scalar _))
    | index i =>
      cases v with
      | arr ref len =>
        refine (readArray_keeps ref len).bind fun items hitems => ?_
        refine .ite (fun _ => .pure (.singleton (within_scalar _))) fun _ => ?_
        cases hitem : items[(indexIn i len).toNat]? with
        | none => exact .pure (.singleton (within_scalar _))
        | some item => exact ih (hitems (within_arr.mp hv) item (mem_of_getElem? hitem))
      | scalar | map => exact .pure (.singleton (within_scalar _))
    | wildcard =>
      cases v with
      | scalar s => exact .pure .nil
      | arr ref len =>
        refine (readArray_keeps ref len).bind fun items hitems => ?_
        exact concatM_keeps fun item hitem => ih (hitems (within_arr.mp hv) item hitem)
      | map ref =>
        refine (readMap_keeps ref).bind fun m hm => ?_
        have hall := map_get_within (hm (within_map.mp hv)) (sortedKeys m)
        exact concatM_keeps fun item hitem => ih (hall item hitem)

theorem grow_keeps (missing : Nat) (hr : K ref) (len : Nat) :
    Keeps K K (grow P missing ref len) (Within K) := by
  induction missing generalizing ref len with
  | zero => exact .pure (within_arr.mpr hr)
  | succ missing ih =>
    refine (appendNil_keeps hr len).bind fun v hv => ?_
    cases v with
    | arr ref len => exact ih (within_arr.mp hv) len
    | scalar | map => exact .throw _

theorem nilAsMap_keeps (hnode : Within A node) : Keeps A W (nilAsMap node) (Within A) :=
  .ite (fun _ => newMap_keeps empty_within) fun _ => .pure hnode

theorem nilAsArray_keeps (hnode : Within A node) : Keeps A W (nilAsArray P node) (Within A) :=
  .ite (fun _ => newArray_keeps .nil) fun _ => .pure hnode

theorem updateOverridePath_keeps {updater : Val → M Val}
    (hupdater : ∀ old, Within K old → Keeps K K (updater old) (Within K)) (p : Path)
    (hnode : Within K node) : Keeps K K (updateOverridePath P p updater node) (Within K) := by
  induction p generalizing node with
  | nil => exact hupdater node hnode
  | cons segment p ih =>
    cases segment with
    | field key =>
      refine (nilAsMap_keeps hnode).bind fun node hnode => ?_
      cases node with
      | scalar | arr => exact .pure hnode
      | map ref =>
        have hr := within_map.mp hnode
        refine (readMap_keeps ref).bind fun m hm => ?_
        refine (ih (get_within (hm hr) key)).bind fun value hvalue => ?_
        exact (writeKey_keeps hr key hvalue).bind fun _ _ => .pure hnode
    | index i =>
      refine (nilAsArray_keeps hnode).bind fun node hnode => ?_
      cases node with
      | scalar | map => exact .pure hnode
      | arr ref len =>
        refine .ite (fun _ => fail_keeps _) fun _ => ?_
        refine (grow_keeps _ (within_arr.mp hnode) len).bind fun grown hgrown => ?_
        cases grown with
        | scalar | map => exact .throw _
        | arr ref len =>
          have hr := within_arr.mp hgrown
          refine (readArray_keeps ref len).bind fun items hitems => ?_
          cases hitem : items[(indexIn i _).toNat]? with
          | none => exact .throw _
          | some item =>
            refine (ih (hitems hr item (mem_of_getElem? hitem))).bind fun value hvalue => ?_
            exact (writeItem_keeps hr _ hvalue).bind fun _ _ => .pure hgrown
    | wildcard =>
      cases node with
      | scalar s => exact .pure hnode
      | arr ref len =>
        have hr := within_arr.mp hnode
        refine (Keeps.forM fun i _ => ?_).bind fun _ _ => .pure hnode
        refine (readArray_keeps ref len).bind fun items hitems => ?_
        cases hitem : items[i]? with
        | none => exact .throw _
        | some item =>
          refine (ih (hitems hr item (mem_of_getElem? hitem))).bind fun value hvalue => ?_
          exact writeItem_keeps hr i hvalue
      | map ref =>
        have hr := within_map.mp hnode
        refine (readMap_keeps ref).bind fun m _ => ?_
        refine (Keeps.forM fun key _ => ?_).bind fun _ _ => .pure hnode
        refine (readMap_keeps ref).bind fun m hm => ?_
        refine (ih (get_within (hm hr) key)).bind fun value hvalue => ?_
        exact writeKey_keeps hr key hvalue

/-! ### Operators -/

theorem cloneInto_keeps (hr : K ref) (m : Mapping) :
    Keeps K K (cloneInto P ref m) fun _ => True := by
  refine .forM fun key _ => ?_
  exact (cloneOverrideValue_keeps _).bind fun v hv => writeKey_keeps hr key hv

theorem evaluateOverrideNumbers_within {operator : String}
    (hv : evaluateOverrideNumbers P operator left right = .ok v) : Within A v := by
  unfold evaluateOverrideNumbers at hv
  split at hv
  · cases hn : P.numbers operator _ _ with
    | ok n =>
      rw [hn] at hv
      cases hv
      exact within_scalar _
    | error text =>
      rw [hn] at hv
      cases hv
  · cases hv

theorem liftExcept_keeps_of_ok (hx : ∀ a, x = .ok a → Q a) : Keeps A W (liftExcept x) Q := by
  cases x with
  | ok a => exact .pure (hx a rfl)
  | error text => exact fail_keeps text

theorem evaluateOverrideNumbers_keeps (operator : String) (left right : Val) :
    Keeps A W (liftExcept (evaluateOverrideNumbers P operator left right)) (Within A) :=
  liftExcept_keeps_of_ok fun _ => evaluateOverrideNumbers_within

theorem addMaps_keeps (ref other : Nat) :
    Keeps A W (evaluateOverrideAdd P (.map ref) (.map other)) (Within A) := by
  refine .of_own (S := Within) (fun K => ?_) fun K v hsub hv => hv.mono hsub
  refine (cloneOverrideValue_keeps (.map ref)).bind fun result hresult => ?_
  cases result with
  | scalar | arr => exact .throw_bind _
  | map ref =>
    refine (readMap_keeps other).bind fun m _ => ?_
    exact (cloneInto_keeps (within_map.mp hresult) m).bind fun _ _ => .pure hresult

theorem evaluateOverrideAdd_keeps (hleft : Within A left) :
    Keeps A W (evaluateOverrideAdd P left right) (Within A) := by
  unfold evaluateOverrideAdd
  split
  · exact cloneOverrideValue_keeps right
  · split
    · exact scalar_keeps _
    · exact fail_keeps _
    · exact scalar_keeps _
    · exact fail_keeps _
  next ref len =>
    refine (readArray_keeps ref len).bind fun items hitems => ?_
    have hitems := hitems (within_arr.mp hleft)
    split
    · exact newArray_keeps hitems
    · refine (cloneOverrideValue_keeps _).bind fun cloned hcloned => ?_
      cases cloned with
      | scalar | map => exact .throw _
      | arr ref len =>
        refine (readArray_keeps ref len).bind fun added hadded => ?_
        exact newArray_keeps (hitems.append (hadded (within_arr.mp hcloned)))
    · refine (cloneOverrideValue_keeps _).bind fun cloned hcloned => ?_
      exact newArray_keeps (hitems.append (.singleton hcloned))
  · split
    · exact addMaps_keeps _ _
    · exact fail_keeps _
  · split
    · exact .ite (fun _ => scalar_keeps _) fun _ => evaluateOverrideNumbers_keeps _ _ _
    · exact evaluateOverrideNumbers_keeps _ _ _

theorem evaluateOverrideSubtract_keeps (hleft : Within A left) :
    Keeps A W (evaluateOverrideSubtract P left right) (Within A) := by
  unfold evaluateOverrideSubtract
  split
  · exact cloneOverrideValue_keeps right
  next ref len =>
    split
    next other otherLen =>
      refine (readArray_keeps other otherLen).bind fun wanted _ => ?_
      refine (Keeps.mapM' fun item _ => treeOf_keeps item).bind fun candidates _ => ?_
      refine (readArray_keeps ref len).bind fun items hitems => ?_
      refine (concatM_keeps fun item hitem => ?_).bind fun kept hkept => newArray_keeps hkept
      refine (treeOf_keeps item).bind fun tree _ => .pure ?_
      split
      · exact .nil
      · exact .singleton (hitems (within_arr.mp hleft) item hitem)
    · exact fail_keeps _
  · exact evaluateOverrideNumbers_keeps _ _ _

theorem mergeAt_keeps (depth left right : Nat) :
    Keeps A W (mergeAt P depth left right) (Within A) := by
  induction depth generalizing A W left right with
  | zero => exact .throw _
  | succ depth ih =>
    refine .of_own (S := Within) (fun K => ?_) fun K v hsub hv => hv.mono hsub
    refine (cloneOverrideValue_keeps (.map left)).bind fun result hresult => ?_
    cases result with
    | scalar | arr => exact .throw_bind _
    | map ref =>
      have hr := within_map.mp hresult
      refine (readMap_keeps right).bind fun m _ => ?_
      refine (Keeps.forM fun key _ => ?_).bind fun _ _ => .pure hresult
      refine (readMap_keeps ref).bind fun _ _ => ?_
      split
      · exact (ih _ _).bind fun v hv => writeKey_keeps hr key hv
      · exact (cloneOverrideValue_keeps _).bind fun v hv => writeKey_keeps hr key hv

theorem repeatString_keeps (s : Str) (n : Num) : Keeps A W (repeatString P s n) (Within A) := by
  unfold repeatString
  split
  · exact fail_keeps _
  · exact .ite (fun _ => fail_keeps _) fun _ => scalar_keeps _

theorem evaluateOverrideMultiply_keeps (left right : Val) :
    Keeps A W (evaluateOverrideMultiply P left right) (Within A) := by
  unfold evaluateOverrideMultiply
  split
  · exact cloneOverrideValue_keeps _
  · exact cloneOverrideValue_keeps _
  · exact cloneOverrideValue_keeps _
  · exact depthBound_keeps.bind fun depth _ => mergeAt_keeps depth _ _
  · exact fail_keeps _
  · exact cloneOverrideValue_keeps _
  · exact repeatString_keeps _ _
  · exact fail_keeps _
  · exact repeatString_keeps _ _
  · exact fail_keeps _
  · exact evaluateOverrideNumbers_keeps _ _ _

theorem evaluateOverrideDivide_keeps (left right : Val) :
    Keeps A W (evaluateOverrideDivide P left right) (Within A) := by
  unfold evaluateOverrideDivide
  split
  · refine .ite (fun _ => newArray_keeps .nil) fun _ => newArray_keeps ?_
    exact .map_scalar _ _
  · exact fail_keeps _
  · exact evaluateOverrideNumbers_keeps _ _ _

theorem evaluateOverrideOrder_keeps (orEqual : Bool) (passes : Ordering → Bool) (left right : Val) :
    Keeps A W (liftExcept (evaluateOverrideOrder P orEqual passes left right)) (Within A) := by
  apply liftExcept_keeps_of_ok
  intro v hv
  unfold evaluateOverrideOrder at hv
  split at hv
  · cases hv
  · split at hv
    · cases hv
      exact within_scalar _
    · cases horder : compareOverrideValues P left right with
      | ok order =>
        rw [horder] at hv
        cases hv
        exact within_scalar _
      | error text =>
        rw [horder] at hv
        cases hv

theorem evaluateOverrideBinary_keeps (op : BinOp) (hleft : Within A left)
    (hright : Within A right) : Keeps A W (evaluateOverrideBinary P op left right) (Within A) := by
  cases op with
  | and | or | eq | ne => exact scalar_keeps _
  | lt | le | gt | ge => exact evaluateOverrideOrder_keeps _ _ _ _
  | alternative =>
    apply Keeps.pure
    split
    · exact hleft
    · exact hright
  | add => exact evaluateOverrideAdd_keeps hleft
  | sub => exact evaluateOverrideSubtract_keeps hleft
  | mul => exact evaluateOverrideMultiply_keeps left right
  | div => exact evaluateOverrideDivide_keeps left right
  | mod => exact evaluateOverrideNumbers_keeps _ _ _

/-! ### Functions of the current value -/

theorem checkCount_keeps {name : String} {want : List Nat} {args : List Val} {m : M α}
    (hm : Keeps A W m Q) : Keeps A W (do checkCount name want args; m) Q := by
  have hcount : Keeps A W (checkCount name want args) fun _ => True :=
    .ite (fun _ => .pure trivial) fun _ => fail_keeps _
  exact hcount.bind fun _ _ => hm

theorem stringArg_keeps (name : String) (args : List Val) (index : Nat) :
    Keeps A W (stringArg name args index) fun _ => True := by
  unfold stringArg
  split
  · exact .pure trivial
  · exact fail_keeps _

theorem arrayInput_keeps (name : String) (hinput : Within A input) :
    Keeps A W (arrayInput name input) (AllWithin A) := by
  cases input with
  | arr ref len => exact (readArray_keeps ref len).mono fun items h => h (within_arr.mp hinput)
  | scalar | map => exact fail_keeps _

theorem stringInput_keeps (name : String) (input : Val) :
    Keeps A W (stringInput name input) fun _ => True := by
  unfold stringInput
  split
  · exact .pure trivial
  · exact fail_keeps _

theorem flattenAt_keeps (depth : Nat) (values : List Val) (limit : Int) :
    Keeps A W (flattenAt P depth values limit) (AllWithin A) := by
  have hcopy := fun v => single_keeps (cloneOverrideValue_keeps (A := A) (W := W) (P := P) v)
  induction depth generalizing values limit with
  | zero => exact .throw _
  | succ depth ih =>
    refine concatM_keeps fun v _ => ?_
    cases v with
    | scalar | map => exact hcopy _
    | arr ref len =>
      refine .ite (fun _ => hcopy _) fun _ => ?_
      exact (readArray_keeps ref len).bind fun items _ => ih items _

theorem overrideUniqueKey_keeps (v : Val) : Keeps A W (overrideUniqueKey P v) fun _ => True := by
  unfold overrideUniqueKey
  split
  · exact .pure trivial
  · exact liftExcept_keeps fun _ => trivial
  · exact .pure trivial
  · exact (treeOf_keeps _).bind fun _ _ => liftExcept_keeps fun _ => trivial

theorem uniqueItems_keeps (values : List Val) (seen : List Str) :
    Keeps A W (uniqueItems P values seen) (AllWithin A) := by
  induction values generalizing seen with
  | nil => exact .pure .nil
  | cons v values ih =>
    refine (overrideUniqueKey_keeps v).bind fun key _ => ?_
    refine .ite (fun _ => ih seen) fun _ => ?_
    refine (cloneOverrideValue_keeps v).bind fun cloned hcloned => ?_
    exact (ih (key :: seen)).bind fun rest hrest => .pure (.cons hcloned hrest)

theorem rearrange_keeps (input : Val) {order : List Val → M (List Val)}
    (horder : ∀ {K items}, AllWithin K items → Keeps K K (order items) (AllWithin K)) :
    Keeps A W (rearrange P input order) (Within A) := by
  refine .of_own (S := Within) (fun K => ?_) fun K v hsub hv => hv.mono hsub
  refine (cloneOverrideValue_keeps input).bind fun result hresult => ?_
  cases result with
  | scalar | map => exact .throw_bind _
  | arr ref len =>
    have hr := within_arr.mp hresult
    refine (readCell_keeps ref).bind fun c hc => ?_
    cases c with
    | map m => exact .throw_bind _
    | arr items =>
      refine (horder ((hc hr).subset (take_subset ..))).bind fun ordered hordered => ?_
      have hstored := hordered.append ((hc hr).subset (drop_subset len items))
      exact (writeCell_keeps hr hstored).bind fun _ _ => .pure hresult

theorem overrideLength_keeps (input : Val) : Keeps A W (overrideLength P input) (Within A) := by
  unfold overrideLength
  split
  · exact scalar_keeps _
  · exact scalar_keeps _
  · exact scalar_keeps _
  · exact (readMap_keeps _).bind fun _ _ => scalar_keeps _
  · exact fail_keeps _
  · exact scalar_keeps _

theorem overrideKeys_keeps (input : Val) : Keeps A W (overrideKeys P input) (Within A) := by
  unfold overrideKeys
  split
  · exact (readMap_keeps _).bind fun m _ => newArray_keeps (.map_scalar _ _)
  · exact (readArray_keeps _ _).bind fun items _ => newArray_keeps (.map_scalar _ _)
  · exact fail_keeps _

theorem overrideHas_keeps (input : Val) (args : List Val) :
    Keeps A W (overrideHas P input args) (Within A) := by
  unfold overrideHas
  split
  · refine (stringArg_keeps _ args 0).bind fun key _ => ?_
    exact (readMap_keeps _).bind fun m _ => scalar_keeps _
  · split <;> exact scalar_keeps _
  · exact scalar_keeps _

theorem overrideContainsCall_keeps (input : Val) (args : List Val) :
    Keeps A W (overrideContainsCall P input args) (Within A) := by
  have htrees : ∀ v w (f : Tree → Tree → Bool),
      Keeps A W (do return .bool (f (← treeOf v) (← treeOf w))) (Within A) := fun v w f =>
    (treeOf_keeps v).bind fun _ _ => (treeOf_keeps w).bind fun _ _ => scalar_keeps _
  unfold overrideContainsCall
  dsimp only
  split
  · exact (stringArg_keeps _ args 0).bind fun _ _ => scalar_keeps _
  · split
    · exact htrees _ _ _
    · exact fail_keeps _
  · split
    · exact htrees _ _ _
    · exact fail_keeps _
  · refine .ite (fun _ => fail_keeps _) fun _ => ?_
    exact .ite (fun _ => scalar_keeps _) fun _ => htrees _ _ _

theorem callFunction_keeps (f : Func) (hinput : Within A input) (args : List Val) :
    Keeps A W (callFunction P f input args) (Within A) := by
  cases f
  all_goals refine checkCount_keeps ?_
  case select =>
    apply Keeps.pure
    split
    · exact within_scalar _
    · exact hinput
  case not | type => exact scalar_keeps _
  case reverse =>
    refine (arrayInput_keeps _ hinput).bind fun _ _ => rearrange_keeps input fun hitems => ?_
    exact .pure (hitems.subset (reverse_subset.mpr (.refl _)))
  case sort =>
    refine (arrayInput_keeps _ hinput).bind fun _ _ => rearrange_keeps input fun hitems => ?_
    split
    · exact .pure (hitems.subset (P.sortStable_perm ‹_›).subset)
    · exact fail_keeps _
  case unique =>
    refine (arrayInput_keeps _ hinput).bind fun items _ => ?_
    exact (uniqueItems_keeps items []).bind fun _ hvs => newArray_keeps hvs
  case flatten =>
    refine (arrayInput_keeps _ hinput).bind fun items _ => ?_
    have hflat : ∀ limit, Keeps A W
        (do newArray P (← flattenAt P (← depthBound) items limit)) (Within A) := fun limit =>
      depthBound_keeps.bind fun depth _ =>
        (flattenAt_keeps depth items limit).bind fun _ hvs => newArray_keeps hvs
    split
    · exact hflat _
    · split
      · exact hflat _
      · exact fail_keeps _
    · exact fail_keeps _
  case any | all =>
    exact (arrayInput_keeps _ hinput).bind fun _ _ => scalar_keeps _
  case length => exact overrideLength_keeps input
  case keys => exact overrideKeys_keeps input
  case has => exact overrideHas_keeps input args
  case contains =>
    exact overrideContainsCall_keeps input args
  case test =>
    have htest : Keeps A W (do
        let value ← stringInput "test" input
        return .bool (← liftExcept (P.matchString (← stringArg "test" args 0) value)))
        (Within A) :=
      (stringInput_keeps _ input).bind fun _ _ => (stringArg_keeps _ args 0).bind fun _ _ =>
        (liftExcept_keeps fun _ => trivial).bind fun _ (_ : True) => scalar_keeps _
    refine .ite (fun _ => ?_) fun _ => htest
    refine (stringArg_keeps _ args 1).bind fun options _ => ?_
    exact .ite (fun _ => (fail_keeps (Q := fun _ => True) _).bind fun _ _ => htest) fun _ => htest
  case sub =>
    refine (stringInput_keeps _ input).bind fun _ _ => ?_
    refine (stringArg_keeps _ args 0).bind fun _ _ => (stringArg_keeps _ args 1).bind fun _ _ => ?_
    exact (liftExcept_keeps fun _ => trivial).bind fun _ (_ : True) => scalar_keeps _
  case split =>
    refine .ite (fun _ => scalar_keeps _) fun _ => ?_
    refine (stringInput_keeps _ input).bind fun _ _ => (stringArg_keeps _ args 0).bind fun _ _ => ?_
    exact newArray_keeps (.map_scalar _ _)
  case join =>
    refine (arrayInput_keeps _ hinput).bind fun _ _ => ?_
    exact (stringArg_keeps _ args 0).bind fun _ _ => scalar_keeps _
  case upcase | downcase | trim =>
    exact (stringInput_keeps _ input).bind fun _ _ => scalar_keeps _
  case tostring =>
    split
    · exact scalar_keeps _
    · refine (treeOf_keeps input).bind fun _ _ => ?_
      exact (liftExcept_keeps fun _ => trivial).bind fun _ (_ : True) => scalar_keeps _
  case tonumber =>
    split
    · exact scalar_keeps _
    · split
      · exact scalar_keeps _
      · exact fail_keeps _
    · exact fail_keeps _

/-! ### Functions of streams -/

theorem overrideCollectionValues_keeps (hinput : Within A input) :
    Keeps A W (overrideCollectionValues input) (AllWithin A) := by
  cases input with
  | scalar s => exact fail_keeps _
  | arr ref len => exact (readArray_keeps ref len).mono fun items h => h (within_arr.mp hinput)
  | map ref =>
    refine (readMap_keeps ref).bind fun m hm => .pure ?_
    exact map_get_within (hm (within_map.mp hinput)) _

theorem newEntry_keeps {key value : Val} (hkey : Within A key) (hvalue : Within A value) :
    Keeps A W (newEntry key value) (Within A) :=
  newMap_keeps (insert_within (insert_within empty_within hvalue _) hkey _)

theorem toOverrideEntries_keeps (input : Val) :
    Keeps A W (toOverrideEntries P input) fun entries => ∀ vs ∈ entries, AllWithin A vs := by
  unfold toOverrideEntries
  split
  · exact .pure nofun
  · refine (readArray_keeps _ _).bind fun items _ => ?_
    refine (Keeps.mapM' (Q := Within A) fun item _ => ?_).bind fun vs hvs => .pure ?_
    · exact (cloneOverrideValue_keeps _).bind fun v hv => newEntry_keeps (within_scalar _) hv
    · exact fun ws hws => Option.some.inj hws ▸ hvs
  · refine (readMap_keeps _).bind fun m _ => ?_
    refine (Keeps.mapM' (Q := Within A) fun key _ => ?_).bind fun vs hvs => .pure ?_
    · exact (cloneOverrideValue_keeps _).bind fun v hv => newEntry_keeps (within_scalar _) hv
    · exact fun ws hws => Option.some.inj hws ▸ hvs
  · exact fail_keeps _

theorem readEntry_keeps (item : Val) : Keeps A W (readEntry item) fun _ => True := by
  unfold readEntry
  split
  · refine (readMap_keeps _).bind fun m _ => ?_
    split
    · exact .pure trivial
    · exact fail_keeps _
    · exact fail_keeps _
    · exact fail_keeps _
  · exact fail_keeps _

theorem fromOverrideEntries_keeps (entries : List Val) :
    Keeps A W (fromOverrideEntries P entries) (Within A) := by
  refine (Keeps.foldlM (Q := fun m => AllWithin A m.values) (fun m hm item _ => ?_)
    empty_within).bind fun m hm => newMap_keeps hm
  refine (readEntry_keeps item).bind fun entry _ => ?_
  exact (cloneOverrideValue_keeps _).bind fun v hv => .pure (insert_within hm hv _)

section
variable {run : List Val → M (List Val)}
  (hrun : ∀ {A W vs}, AllWithin A vs → Keeps A W (run vs) (AllWithin A))
include hrun

theorem search_keeps (test : Val → Bool) {items : List Val} (hitems : AllWithin A items) :
    Keeps A W (callStream.search run test items) fun _ => True := by
  induction items with
  | nil => exact .pure trivial
  | cons item items ih =>
    obtain ⟨hitem, hitems⟩ := forall_mem_cons.mp hitems
    refine (hrun (.singleton hitem)).bind fun results _ => ?_
    cases results with
    | nil => exact ih hitems
    | cons result results => exact .ite (fun _ => .pure trivial) fun _ => ih hitems

theorem mapValues_keeps (count : Nat) (input : Val) :
    Keeps A W (callStream P .mapValues count run input) (AllWithin A) := by
  refine .of_own (S := AllWithin) (fun K => ?_) fun K v hsub hv => hv.mono hsub
  refine unless_fails_keeps ?_
  split
  · refine (cloneOverrideValue_keeps _).bind fun result hresult => ?_
    split
    · have hr := within_arr.mp hresult
      refine (Keeps.forM fun i _ => ?_).bind fun _ _ => .pure (.singleton hresult)
      refine (readArray_keeps _ _).bind fun items hitems => ?_
      split
      · have hitem := hitems hr _ (mem_of_getElem? ‹_›)
        refine (hrun (.singleton hitem)).bind fun results hresults => ?_
        split
        · exact (cloneOverrideValue_keeps _).bind fun v hv => writeItem_keeps hr i hv
        · exact .pure trivial
      · exact .throw _
    · exact .throw _
  · refine (cloneOverrideValue_keeps _).bind fun result hresult => ?_
    split
    · have hr := within_map.mp hresult
      refine (readMap_keeps _).bind fun m _ => ?_
      refine (Keeps.forM fun key _ => ?_).bind fun _ _ => .pure (.singleton hresult)
      refine (readMap_keeps _).bind fun m hm => ?_
      have hitem := get_within (hm hr) key
      refine (hrun (.singleton hitem)).bind fun results hresults => ?_
      split
      · exact (cloneOverrideValue_keeps _).bind fun v hv => writeKey_keeps hr key hv
      · exact .pure trivial
    · exact .throw _
  · exact fail_keeps _

theorem callStream_keeps (f : StreamFunc) (count : Nat) {input : Val} (hinput : Within A input) :
    Keeps A W (callStream P f count run input) (AllWithin A) := by
  cases f
  case mapValues => exact mapValues_keeps hrun count input
  all_goals refine unless_fails_keeps ?_
  case map =>
    refine (overrideCollectionValues_keeps hinput).bind fun values hvalues => ?_
    refine (hrun hvalues).bind fun results hresults => ?_
    exact single_keeps (newArray_keeps hresults)
  case filter =>
    refine (overrideCollectionValues_keeps hinput).bind fun values hvalues => ?_
    refine (concatM_keeps fun value hvalue => ?_).bind fun kept hkept => ?_
    · refine (hrun (.singleton (hvalues value hvalue))).bind fun results _ => ?_
      refine .ite (fun _ => ?_) fun _ => .pure .nil
      exact single_keeps (cloneOverrideValue_keeps value)
    · exact single_keeps (newArray_keeps hkept)
  case toEntries =>
    refine (toOverrideEntries_keeps input).bind fun entries hentries => ?_
    cases entries with
    | none => exact .pure .nil
    | some entries =>
      exact single_keeps (newArray_keeps (hentries entries rfl))
  case fromEntries =>
    split
    · refine (readArray_keeps _ _).bind fun entries _ => ?_
      exact single_keeps (fromOverrideEntries_keeps entries)
    · exact fail_keeps _
  case withEntries =>
    split
    · refine (toOverrideEntries_keeps _).bind fun entries hentries => ?_
      cases entries with
      | none => exact .pure .nil
      | some entries =>
        refine (concatM_keeps fun entry hentry => ?_).bind fun items _ => ?_
        · exact hrun (.singleton (hentries entries rfl entry hentry))
        · exact single_keeps (fromOverrideEntries_keeps items)
    · exact fail_keeps _
  case anyC | allC =>
    refine (arrayInput_keeps _ hinput).bind fun items hitems => ?_
    exact (search_keeps hrun _ hitems).bind fun _ _ => .pure (.singleton (within_scalar _))

end

end Mihomo.Override
