import Mihomo.Override.Effects
import Mihomo.Override.Statement

/-!
# Evaluation only allocates

By induction over the expression, evaluation writes to no cell that was there before. A statement may
write to the mapping that it is applied to, and does so within the region of the mapping.
-/

namespace Mihomo.Override
open Go Lib List Mapping

variable {A W K : Nat → Prop} {P : Prims} {α : Type}

/-! ### Expressions -/

theorem singleResult_keeps {vs : List Val} (hvs : AllWithin A vs) :
    Keeps A W (singleResult vs) (Within A) := by
  unfold singleResult
  split
  · exact .pure (within_scalar _)
  · exact .pure (hvs _ mem_cons_self)
  · exact fail_keeps _

theorem unlessNoMatch_within {v : Val} (hv : Within A v) : AllWithin A (unlessNoMatch v) := by
  unfold unlessNoMatch
  split
  · exact .nil
  · exact .singleton hv

theorem evalBinary_keeps (op : BinOp) {lefts : List Val} (hlefts : AllWithin A lefts)
    {right : M (List Val)} (hright : Keeps A W right (AllWithin A)) :
    Keeps A W (evalBinary P op lefts right) (AllWithin A) := by
  have hpairs : ∀ op, ∀ rights, AllWithin A rights → ∀ left ∈ lefts,
      Keeps A W (rights.mapM' (evaluateOverrideBinary P op left)) (AllWithin A) :=
    fun op rights hrights left hleft => .mapM' fun right hr =>
      evaluateOverrideBinary_keeps op (hlefts left hleft) (hrights right hr)
  have hbool : ∀ b, AllWithin A [.bool b] := fun b => .singleton (within_scalar _)
  unfold evalBinary
  split
  · refine .ite (fun _ => hright) fun _ => concatM_keeps fun left hleft => ?_
    exact .ite (fun _ => .pure (.singleton (hlefts left hleft))) fun _ => hright
  · refine .ite (fun _ => ?_) fun _ => .pure (.map_scalar _ _)
    refine hright.bind fun rights hrights => concatM_keeps fun left hleft => ?_
    exact .ite (fun _ => hpairs _ rights hrights left hleft) fun _ => .pure (hbool _)
  · refine .ite (fun _ => ?_) fun _ => .pure (.map_scalar _ _)
    refine hright.bind fun rights hrights => concatM_keeps fun left hleft => ?_
    exact .ite (fun _ => .pure (hbool _)) fun _ => hpairs _ rights hrights left hleft
  · refine hright.bind fun rights hrights => concatM_keeps fun left hleft => ?_
    exact hpairs _ rights hrights left hleft

theorem interpolated_keeps (vs : List Val) : Keeps A W (interpolated P vs) fun _ => True := by
  unfold interpolated
  split
  · exact .pure trivial
  · exact .pure trivial
  · exact liftExcept_keeps fun _ => trivial
  · exact .pure trivial
  · exact (treeOf_keeps _).bind fun _ _ => liftExcept_keeps fun _ => trivial

theorem update_keeps (p : Path) (op : AssignOp) {value : Expr}
    (hvalue : ∀ {A W inputs}, AllWithin A inputs → Keeps A W (evalInputs P value inputs) (AllWithin A))
    (inputs : List Val) : Keeps A W (evalInputs P (.update p op value) inputs) (AllWithin A) := by
  refine concatM_keeps fun input _ => ?_
  refine .of_own (S := AllWithin) (fun K => ?_) fun K v hsub hv => hv.mono hsub
  refine (cloneOverrideValue_keeps input).bind fun root hroot => ?_
  have hupdate : ∀ updater, (∀ old, Within K old → Keeps K K (updater old) (Within K)) →
      Keeps K K (do return unlessNoMatch (← updateOverridePath P p updater root)) (AllWithin K) :=
    fun updater hupdater => (updateOverridePath_keeps hupdater p hroot).bind fun v hv =>
      .pure (unlessNoMatch_within hv)
  split
  · refine (hvalue (.singleton hroot)).bind fun vs hvs => ?_
    refine (singleResult_keeps hvs).bind fun result _ => ?_
    refine .ite (fun _ => .pure (unlessNoMatch_within hroot)) fun _ => ?_
    exact hupdate _ fun _ _ => cloneOverrideValue_keeps result
  · refine hupdate _ fun old hold => ?_
    refine (hvalue (.singleton hold)).bind fun vs hvs => ?_
    refine (singleResult_keeps hvs).bind fun result hresult => .pure ?_
    split
    · exact hold
    · exact hresult
  · refine (hvalue (.singleton hroot)).bind fun vs hvs => ?_
    refine (singleResult_keeps hvs).bind fun result hresult => ?_
    exact hupdate _ fun old hold => evaluateOverrideBinary_keeps _ hold hresult

mutual

theorem evalInputs_keeps (e : Expr) {A W : Nat → Prop} {inputs : List Val} (hinputs : AllWithin A inputs) :
    Keeps A W (evalInputs P e inputs) (AllWithin A) := by
  cases e
  case update p op value =>
    exact update_keeps p op (fun hinputs => evalInputs_keeps value hinputs) inputs
  all_goals unfold evalInputs
  case literal v =>
    refine concatM_keeps fun _ _ => ?_
    exact (cloneOverrideValue_keeps v).bind fun _ hcloned => .pure (unlessNoMatch_within hcloned)
  case union values => exact evalEach_keeps values hinputs
  all_goals
    refine concatM_keeps fun input hinput => ?_
    replace hinput := hinputs input hinput
  case string parts =>
    exact (evalParts_keeps parts hinput).bind fun _ _ => .pure (.singleton (within_scalar _))
  case path p => exact lookupOverridePathStream_keeps p hinput
  case array values =>
    refine (evalEach_keeps values (.singleton hinput)).bind fun vs hvs => ?_
    exact single_keeps (newArray_keeps hvs)
  case mapping entries =>
    refine (evalEntries_keeps entries hinput empty_within).bind fun m hm => ?_
    exact single_keeps (newMap_keeps hm)
  case binary op left right =>
    have hinput := AllWithin.singleton hinput
    refine (evalInputs_keeps left hinput).bind fun lefts hlefts => ?_
    exact evalBinary_keeps op hlefts (evalInputs_keeps right hinput)
  case call f args =>
    refine .ite (fun _ => .pure .nil) fun _ => ?_
    refine (evalArgs_keeps args hinput).bind fun vs _ => ?_
    exact (callFunction_keeps f hinput vs).bind fun v hv => .pure (unlessNoMatch_within hv)
  case stream f args => exact callStream_keeps (fun hvs => evalEach_keeps args hvs) f _ hinput
  case pipeline stages => exact evalStages_keeps stages (.singleton hinput)

theorem evalEach_keeps (es : List Expr) {A W : Nat → Prop} {inputs : List Val} (hinputs : AllWithin A inputs) :
    Keeps A W (evalEach P es inputs) (AllWithin A) := by
  cases es with
  | nil =>
    exact .pure .nil
  | cons e es =>
    refine (evalInputs_keeps e hinputs).bind fun vs hvs => ?_
    exact (evalEach_keeps es hinputs).bind fun ws hws => .pure (hvs.append hws)

theorem evalStages_keeps (es : List Expr) {A W : Nat → Prop} {inputs : List Val}
    (hinputs : AllWithin A inputs) : Keeps A W (evalStages P es inputs) (AllWithin A) := by
  cases es with
  | nil =>
    exact .pure hinputs
  | cons e es =>
    exact (evalInputs_keeps e hinputs).bind fun vs hvs => evalStages_keeps es hvs

theorem evalArgs_keeps : ∀ (es : List Expr) {A W : Nat → Prop} {input : Val},
    Within A input → Keeps A W (evalArgs P es input) (AllWithin A)
  | [], A, W, input, _ => by
    unfold evalArgs
    exact .pure .nil
  | e :: es, A, W, input, hinput => by
    unfold evalArgs
    refine (evalInputs_keeps e (.singleton hinput)).bind fun vs hvs => ?_
    refine (singleResult_keeps hvs).bind fun v hv => ?_
    exact (evalArgs_keeps es hinput).bind fun vs hvs => .pure (.cons hv hvs)

theorem evalEntries_keeps : ∀ (es : List (Str × Expr)) {A W : Nat → Prop} {input : Val}
    {m : Mapping}, Within A input → AllWithin A m.values →
    Keeps A W (evalEntries P es input m) fun m => AllWithin A m.values
  | [], A, W, input, m, _, hm => by
    unfold evalEntries
    exact .pure hm
  | (key, e) :: es, A, W, input, m, hinput, hm => by
    unfold evalEntries
    refine (evalInputs_keeps e (.singleton hinput)).bind fun vs hvs => ?_
    split
    · have hv := hvs _ (mem_of_getLast? ‹_›)
      exact evalEntries_keeps es hinput (insert_within hm hv key)
    · exact evalEntries_keeps es hinput hm

theorem evalParts_keeps : ∀ (es : List Expr) {A W : Nat → Prop} {input : Val},
    Within A input → Keeps A W (evalParts P es input) fun _ => True
  | [], A, W, input, _ => by
    unfold evalParts
    exact .pure trivial
  | e :: es, A, W, input, hinput => by
    unfold evalParts
    refine (evalInputs_keeps e (.singleton hinput)).bind fun vs _ => ?_
    refine (interpolated_keeps vs).bind fun _ _ => ?_
    exact (evalParts_keeps es hinput).bind fun _ _ => .pure trivial

end

theorem evalOverrideSingle_keeps (e : Expr) {input : Val} (hinput : Within A input) :
    Keeps A W (evalOverrideSingle P e input) (Within A) :=
  (evalInputs_keeps e (.singleton hinput)).bind fun _ hvs => singleResult_keeps hvs

/-! ### Statements -/

theorem expandOverrideTargetPath_keeps (p : Path) {selection : Selection}
    (hselection : Within A selection.value) :
    Keeps A W (expandOverrideTargetPath p selection) fun ss => ∀ s ∈ ss, Within A s.value := by
  induction p generalizing selection with
  | nil => exact .pure (forall_mem_singleton.mpr hselection)
  | cons segment p ih =>
    obtain ⟨value, before⟩ := selection
    unfold expandOverrideTargetPath
    cases segment with
    | field key =>
      dsimp only
      split
      · exact ih (within_scalar _)
      · refine (readMap_keeps _).bind fun m hm => ih ?_
        exact get_within (hm (within_map.mp hselection)) key
      · exact .pure nofun
    | index i =>
      dsimp only
      split
      · exact ih (within_scalar _)
      · refine (readArray_keeps _ _).bind fun items hitems => ?_
        refine .ite (fun _ => .pure nofun) fun _ => ih ?_
        cases hitem : items[(indexIn i _).toNat]? with
        | none => exact within_scalar _
        | some item => exact hitems (within_arr.mp hselection) item (mem_of_getElem? hitem)
      · exact .pure nofun
    | wildcard =>
      dsimp only
      split
      · refine (readArray_keeps _ _).bind fun items hitems => ?_
        refine concatM_keeps_forall fun item hitem => ih ?_
        exact hitems (within_arr.mp hselection) _ (fst_mem_of_mem_zipIdx hitem)
      · refine (readMap_keeps _).bind fun m hm => ?_
        refine concatM_keeps_forall fun key _ => ih ?_
        exact get_within (hm (within_map.mp hselection)) key
      · exact .pure nofun

theorem resolve_keeps (stages : List TargetStage) {selections : List Selection}
    (hselections : ∀ s ∈ selections, Within A s.value) :
    Keeps A W (resolve P stages selections) fun _ => True := by
  induction stages generalizing selections with
  | nil => exact .pure trivial
  | cons stage stages ih =>
    cases stage with
    | path p =>
      refine (concatM_keeps_forall fun s hs => ?_).bind fun expanded hexpanded => ih hexpanded
      exact expandOverrideTargetPath_keeps p (hselections s hs)
    | condition e =>
      refine (concatM_keeps_forall fun s hs => ?_).bind fun kept hkept => ih hkept
      refine (evalInputs_keeps e (.singleton (hselections s hs))).bind fun matched _ => .pure ?_
      split
      · exact forall_mem_singleton.mpr (hselections s hs)
      · exact nofun

section
variable {root : Nat} (hroot : K root)
include hroot

theorem replaceOverrideMapping_keeps (replacement : Nat) :
    Keeps K K (replaceOverrideMapping P root replacement) fun _ => True := by
  refine (cloneOverrideValue_keeps _).bind fun cloned hcloned => ?_
  cases cloned with
  | scalar | arr => exact .throw _
  | map ref =>
    refine (readMap_keeps ref).bind fun m hm => ?_
    exact writeCell_keeps hroot (hm (within_map.mp hcloned))

variable {updater : Val → M Val}
  (hupdater : ∀ old, Within K old → Keeps K K (updater old) (Within K))
include hupdater

theorem updateAt_keeps (p : Path) : Keeps K K (updateAt P root updater p) fun _ => True := by
  refine (updateOverridePath_keeps hupdater p (within_map.mpr hroot)).bind fun updated _ => ?_
  cases updated with
  | scalar | arr => exact fail_keeps _
  | map ref => exact .ite (fun _ => replaceOverrideMapping_keeps hroot ref) fun _ => .pure trivial

theorem updateTarget_keeps (target : Target) :
    Keeps K K (updateTarget P root updater target) fun _ => True := by
  cases target with
  | path p => exact updateAt_keeps hroot hupdater p
  | stages stages =>
    refine (resolve_keeps stages ?_).bind fun selections _ => ?_
    · exact forall_mem_singleton.mpr (within_map.mpr hroot)
    · exact .forM fun selection _ => updateAt_keeps hroot hupdater selection.path

end

theorem deleteAt_keeps (depth : Nat) {node : Val} (hnode : Within K node) (paths : List Path) :
    Keeps K K (deleteAt P depth node paths) (Within K) := by
  induction depth generalizing node paths with
  | zero =>
    cases node with
    | scalar | map => exact .pure hnode
    | arr ref len =>
      refine (readArray_keeps ref len).bind fun items hitems => ?_
      exact newArray_keeps (hitems (within_arr.mp hnode))
  | succ depth ih =>
    cases node with
    | scalar s => exact .pure hnode
    | map ref =>
      have hr := within_map.mp hnode
      refine (readMap_keeps ref).bind fun m _ => ?_
      refine (Keeps.forM fun key _ => ?_).bind fun _ _ => .pure hnode
      refine .ite (fun _ => deleteKey_keeps hr key) fun _ => ?_
      refine .ite (fun _ => .pure trivial) fun _ => ?_
      refine (readMap_keeps ref).bind fun m hm => ?_
      refine (ih (get_within (hm hr) key) _).bind fun v hv => ?_
      exact writeKey_keeps hr key hv
    | arr ref len =>
      refine (readArray_keeps ref len).bind fun items hitems => ?_
      refine (concatM_keeps fun item hitem => ?_).bind fun kept hkept => ?_
      · have hitem := hitems (within_arr.mp hnode) _ (fst_mem_of_mem_zipIdx hitem)
        refine .ite (fun _ => .pure .nil) fun _ => ?_
        refine .ite (fun _ => .pure (.singleton hitem)) fun _ => ?_
        exact (ih hitem _).bind fun v hv => .pure (.singleton hv)
      · exact newArray_keeps hkept

theorem applyStatement_keeps {root : Nat} (hroot : K root) (statement : Statement) :
    Keeps K K (applyStatement P root statement) fun _ => True := by
  have hmap : Within K (.map root) := within_map.mpr hroot
  cases statement with
  | filter e =>
    refine (evalOverrideSingle_keeps e hmap).bind fun result _ => ?_
    split
    · exact fail_keeps _
    · exact replaceOverrideMapping_keeps hroot _
    · exact fail_keeps _
  | delete paths =>
    refine (deleteAt_keeps _ hmap paths).bind fun result _ => ?_
    split
    · exact .pure trivial
    · exact fail_keeps _
  | assign target op value =>
    show Keeps K K (applyAssign P root target op value) _
    unfold applyAssign
    split
    · refine (evalOverrideSingle_keeps value hmap).bind fun result _ => ?_
      refine .ite (fun _ => .pure trivial) fun _ => updateTarget_keeps hroot (fun _ _ => ?_) target
      exact cloneOverrideValue_keeps result
    · refine updateTarget_keeps hroot (fun old hold => ?_) target
      refine (evalOverrideSingle_keeps value hold).bind fun result hresult => .pure ?_
      split
      · exact hold
      · exact hresult
    · refine (evalOverrideSingle_keeps value hmap).bind fun result hresult => ?_
      refine .ite (fun _ => .pure trivial) fun _ => updateTarget_keeps hroot (fun old hold => ?_) target
      exact evaluateOverrideBinary_keeps _ hold hresult

theorem apply_keeps {root : Nat} (hroot : K root) (statements : List Statement) :
    Keeps K K (apply P root statements) fun _ => True :=
  .forM fun statement _ => applyStatement_keeps hroot statement

/-! ### Whole evaluations -/

def heapAfter (m : M α) (h : Heap) : Heap :=
  match m h with
  | .ok _ h' => h'
  | .error _ h' => h'

theorem Keeps.frame {m : M α} {Q : α → Prop} {h : Heap} (hm : Keeps A W m Q)
    (hreg : Region Cell.refs A h) (hW : ∀ r, h.length ≤ r → W r) : Frame W h (heapAfter m h) := by
  have hrun := hm h hreg hW
  unfold heapAfter
  revert hrun
  cases m h with
  | ok a h' => exact fun hrun => hrun.1
  | error e h' => exact id

def Reaches (h : Heap) : Nat → Nat → Prop :=
  Relation.ReflTransGen fun a b => ∃ c, h[a]? = some c ∧ b ∈ c.refs

theorem region_of_reaches (h : Heap) (root : Nat) :
    Region Cell.refs (fun r => Reaches h root r ∨ h.length ≤ r) h := by
  refine ⟨fun r hr => .inr hr, fun r c hr hc s hs => ?_⟩
  cases hr with
  | inl hreach => exact .inl (hreach.tail ⟨c, hc, hs⟩)
  | inr hlen =>
    rw [getElem?_eq_none hlen] at hc
    cases hc

end Mihomo.Override
