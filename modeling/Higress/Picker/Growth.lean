import Higress.Lib.XxHash
import Higress.Picker.Locality

/-!
A chat that goes on. Requests of one conversation repeat its messages and append
new ones; the endpoint that served the earlier request is found again because the
chain of the later request starts with the chain of the earlier one.

Whatever a visit of a message does, it only appends to the chain, and it does not
look at what follows the message. So the run over the longer array is the run over
the shorter one, continued.
-/

namespace Higress.Picker

open Lib

/-! ### Writers that keep a relation -/

/-- Whatever is done with the writer, its state before and after is related. -/
structure Writer.Keeps {σ : Type} (w : Writer σ) (R : σ → σ → Prop) : Prop where
  refl : ∀ s, R s s
  trans : ∀ s t u, R s t → R t u → R s u
  write : ∀ data, Act.Keeps R (w.write data)
  nodes : ∀ count s t, w.consumeCanonicalNodes count s = some t → R s t

namespace Writer.Keeps

variable {σ : Type} {w : Writer σ} {R : σ → σ → Prop} (h : w.Keeps R)
include h

theorem bind {α β : Type} {x : Act LocalityError σ α} {f : α → Act LocalityError σ β}
    (hx : Act.Keeps R x) (hf : ∀ a, Act.Keeps R (f a)) : Act.Keeps R (x >>= f) :=
  Act.Keeps.bind h.trans hx hf

theorem pure : Act.Keeps R (Pure.pure () : Act LocalityError σ Unit) := Act.Keeps.pure h.refl ()

theorem fail (e : LocalityError) : Act.Keeps R (Act.fail e : Act LocalityError σ Unit) :=
  Act.Keeps.fail h.refl e

theorem guarded {c : Prop} [Decidable c] {x : Act LocalityError σ Unit} (hx : Act.Keeps R x) :
    Act.Keeps R (Act.onlyIf c x) :=
  Act.Keeps.onlyIf h.refl _ hx

theorem checkCap : Act.Keeps R w.checkCap :=
  h.bind (Act.Keeps.look h.refl _) fun _ => h.guarded (h.fail _)

theorem checkNodes (count : ℕ) : Act.Keeps R (w.checkNodes count) := by
  intro s
  rw [Writer.checkNodes]
  split
  · exact h.refl s
  · rename_i t ht
    exact h.nodes count s t ht

theorem writeDecodedFrom (data : GoString) : Act.Keeps R (writeDecodedFrom w data) := by
  induction hlen : data.length using Nat.strongRecOn generalizing data with
  | ind n ih =>
      subst hlen
      rw [Picker.writeDecodedFrom]
      refine h.bind (Act.Keeps.look h.refl _) fun limit => ?_
      split
      · exact h.pure
      · rename_i hdata
        have hpos : 0 < data.length := List.length_pos_iff.mpr fun hnil => hdata (.inl hnil)
        split
        · refine h.bind (h.write _) fun _ => ih _ ?_ _ rfl
          have hwindow : 0 < (window limit data).length := by
            cases limit with
            | none => exact hpos
            | some n =>
                have : n ≠ 0 := fun h => hdata (.inr (by rw [h]))
                simp only [window, List.length_take]
                omega
          rw [List.length_drop]
          omega
        · refine h.bind (h.guarded (h.write _)) fun _ => ?_
          refine h.bind (Act.Keeps.lift h.refl _) fun decoded => ?_
          refine h.bind (h.write _) fun _ => ih _ ?_ _ rfl
          simp only [List.length_drop]
          omega

theorem writeDecodedJSONString (raw : GoString) :
    Act.Keeps R (writeDecodedJSONString w raw) := by
  rw [Picker.writeDecodedJSONString]
  exact Act.Keeps.ite _ (h.writeDecodedFrom _) (h.fail _)

theorem writeCanonicalFrom (data : GoString) : Act.Keeps R (writeCanonicalFrom w data) := by
  induction hlen : data.length using Nat.strongRecOn generalizing data with
  | ind n ih =>
      subst hlen
      rw [Picker.writeCanonicalFrom]
      split
      · exact h.pure
      · rename_i hdata
        have hpos : 0 < data.length := List.length_pos_iff.mpr hdata
        refine h.bind h.checkCap fun _ => ?_
        split
        · refine h.bind (h.write _) fun _ => ih _ ?_ _ rfl
          rw [List.length_drop]
          omega
        · refine h.bind (h.write _) fun _ => ih _ ?_ _ rfl
          rw [List.length_drop]
          omega

theorem canonicalStringWriter : (canonicalStringWriter w).Keeps R where
  refl := h.refl
  trans := h.trans
  write := h.writeCanonicalFrom
  nodes _ s t hs := by
    have : s = t := by simpa [Picker.canonicalStringWriter] using hs
    rw [this]
    exact h.refl t

theorem writeCanonicalJSONString (raw : GoString) :
    Act.Keeps R (writeCanonicalJSONString w raw) :=
  h.bind h.checkCap fun _ => h.bind (h.write _) fun _ =>
    h.bind (h.canonicalStringWriter.writeDecodedJSONString raw) fun _ => h.write _

theorem writeFields {writeValue : GoString → Act LocalityError σ Unit}
    (hvalue : ∀ raw, Act.Keeps R (writeValue raw)) (first : Bool) (fields : List JsonField) :
    Act.Keeps R (writeFields w writeValue first fields) := by
  induction fields generalizing first with
  | nil => exact h.pure
  | cons field fields ih =>
      rw [Picker.writeFields]
      refine h.bind h.checkCap fun _ => h.bind (h.guarded (h.write _)) fun _ => ?_
      refine h.bind (h.writeCanonicalJSONString _) fun _ => h.bind (h.write _) fun _ => ?_
      exact h.bind (hvalue _) fun _ => ih false

theorem writeCanonicalObjectWith (order : FieldSort)
    {writeValue : GoString → Act LocalityError σ Unit}
    (hvalue : ∀ raw, Act.Keeps R (writeValue raw)) (fields : List JsonField) :
    Act.Keeps R (writeCanonicalObjectWith order w writeValue fields) :=
  h.bind h.checkCap fun _ => h.bind (h.write _) fun _ =>
    h.bind (h.writeFields hvalue true _) fun _ => h.write _

theorem forEachFrom {shouldContinue : σ → Bool} {visit : GoString → Act LocalityError σ Unit}
    (hvisit : ∀ item, Act.Keeps R (visit item)) (s : GoString) :
    Act.Keeps R (forEachFrom shouldContinue visit s) := by
  induction hlen : s.length using Nat.strongRecOn generalizing s with
  | ind n ih =>
      subst hlen
      rw [Picker.forEachFrom]
      split
      · exact h.fail _
      · rename_i b t hskip
        refine Act.Keeps.ite _ h.pure ?_
        refine h.bind (Act.Keeps.look h.refl _) fun goOn => h.bind (h.guarded (h.fail _)) fun _ => ?_
        split
        · exact h.fail _
        · rename_i item rest hitem
          refine h.bind (hvisit item) fun _ => ?_
          split
          · exact h.fail _
          · exact h.pure
          · rename_i more hafter
            refine ih _ ?_ more rfl
            have hle := length_skipWhitespace_le s
            have hlt := afterValue_shortens hafter
            rw [hskip, (scanJSONValue_append hitem).1, List.length_append] at hle
            omega

theorem forEachArrayValueWhile {shouldContinue : σ → Bool}
    {visit : GoString → Act LocalityError σ Unit} (hvisit : ∀ item, Act.Keeps R (visit item))
    (raw : GoString) : Act.Keeps R (forEachArrayValueWhile raw shouldContinue visit) := by
  rw [Picker.forEachArrayValueWhile]
  split
  · exact Act.Keeps.ite _ (h.forEachFrom hvisit _) (h.fail _)
  · exact h.fail _

/-- The same writer where there is a local variable. -/
theorem withVar {τ : Type} : Writer.Keeps (σ := σ × τ)
    { write := fun data => Act.outer (w.write data) } (fun s t => R s.1 t.1) where
  refl s := h.refl s.1
  trans s t u := h.trans s.1 t.1 u.1
  write data := Act.Keeps.outer (h.write data)
  nodes _ s t hs := by
    have : s = t := by simpa using hs
    rw [this]
    exact h.refl t.1

theorem writeElement {writeValue : GoString → Act LocalityError σ Unit}
    (hvalue : ∀ raw, Act.Keeps R (writeValue raw)) (value : GoString) :
    Act.Keeps (fun s t => R s.1 t.1) (writeElement w writeValue value) := by
  have hvar := h.withVar (τ := Bool)
  refine hvar.bind (Act.Keeps.look hvar.refl _) fun first => ?_
  refine hvar.bind (hvar.guarded (hvar.write _)) fun _ => ?_
  exact hvar.bind (fun s => h.refl s.1) fun _ => Act.Keeps.outer (hvalue value)

theorem writeCanonicalAt (order : FieldSort) (left : ℕ) (raw : GoString) :
    Act.Keeps R (writeCanonicalAt order w left raw) := by
  induction left generalizing raw with
  | zero =>
      rw [Picker.writeCanonicalAt.eq_def]
      refine h.bind h.checkCap fun _ => h.bind (h.checkNodes 1) fun _ => ?_
      split
      · exact h.fail _
      · refine Act.Keeps.ite _ (h.fail _) ?_
        exact Act.Keeps.ite _ (h.writeCanonicalJSONString _) (h.write _)
      · contradiction
  | succ left ih =>
      rw [Picker.writeCanonicalAt.eq_def]
      refine h.bind h.checkCap fun _ => h.bind (h.checkNodes 1) fun _ => ?_
      split
      · exact h.fail _
      · contradiction
      · rename_i b t left' _ heq
        obtain rfl : left = left' := by simpa using heq
        refine Act.Keeps.ite _ ?_ (Act.Keeps.ite _ ?_ ?_)
        · refine h.bind (Act.Keeps.look h.refl _) fun remaining => ?_
          refine h.bind (Act.Keeps.lift h.refl _) fun fields => ?_
          exact h.bind (h.checkNodes _) fun _ => h.writeCanonicalObjectWith order ih fields
        · refine h.bind (h.write _) fun _ => h.bind ?_ fun _ => h.write _
          exact Act.Keeps.withVar _ (h.withVar.forEachArrayValueWhile (h.writeElement ih) _)
        · exact Act.Keeps.ite _ (h.writeCanonicalJSONString _) (h.write _)

theorem writeCanonicalObject (order : FieldSort) (fields : List JsonField) :
    Act.Keeps R (writeCanonicalObject order w fields) :=
  h.writeCanonicalObjectWith order (h.writeCanonicalAt order _) fields

theorem writeTextPart (order : FieldSort) (raw : GoString) :
    Act.Keeps (fun s t => R s.1 t.1) (writeTextPart order w raw) := by
  have hvar := h.withVar (τ := Bool)
  refine hvar.bind (Act.Keeps.look hvar.refl _) fun first => ?_
  refine hvar.bind (hvar.guarded (Act.Keeps.outer
    (h.bind (h.write _) fun _ => h.checkCap))) fun _ => ?_
  refine hvar.bind (fun s => h.refl s.1) fun _ => ?_
  refine hvar.bind (Act.Keeps.look hvar.refl _) fun remaining => ?_
  refine hvar.bind (hvar.guarded (hvar.fail _)) fun _ => ?_
  refine hvar.bind (Act.Keeps.lift hvar.refl _) fun fields => ?_
  refine hvar.bind (Act.Keeps.outer (h.checkNodes _)) fun _ => ?_
  exact Act.Keeps.ite _ (Act.Keeps.outer (h.writeCanonicalObject order fields)) (hvar.fail _)

theorem writeMessageContent (order : FieldSort) (content : GoString) (kind : MessageContentKind) :
    Act.Keeps R (writeMessageContent order w content kind) := by
  cases kind with
  | absent => exact h.pure
  | null => exact h.write _
  | string => exact h.writeDecodedJSONString _
  | structuredText =>
      refine h.bind (h.checkNodes 1) fun _ => h.bind (h.write _) fun _ => ?_
      refine h.bind (Act.Keeps.withVar _ ?_) fun _ => h.write _
      exact h.withVar.forEachArrayValueWhile (h.writeTextPart order) _

theorem boundedWriter : (boundedWriter w).Keeps fun s t => R s.target t.target where
  refl s := h.refl s.target
  trans s t u := h.trans s.target t.target u.target
  write data s := by
    simp only [Picker.boundedWriter]
    split
    · exact h.refl s.target
    · exact h.write _ s.target
  nodes _ s t hs := by
    have : s = t := by simpa [Picker.boundedWriter] using hs
    rw [this]
    exact h.refl t.target

theorem canonicalBudgetWriter :
    (canonicalBudgetWriter w).Keeps fun s t => R s.target t.target where
  refl s := h.refl s.target
  trans s t u := h.trans s.target t.target u.target
  write data s := h.write data s.target
  nodes count s t hs := by
    have : s.target = t.target := by
      simp only [Picker.canonicalBudgetWriter] at hs
      split at hs
      · simp at hs
      · simp only [Option.some.injEq] at hs
        rw [← hs]
    rw [this]
    exact h.refl t.target

end Writer.Keeps

/-! ### The items of an array -/

section

variable {σ : Type} {shouldContinue : σ → Bool}

theorem forEachFrom_eq_visitAll {s : GoString} {found found' : List GoString}
    (h : forEachFrom (fun _ => true) (fun item => Act.update (· ++ [item])) s found =
      (.ok (), found')) :
    ∃ items, found' = found ++ items ∧
      ∀ visit : GoString → Act LocalityError σ Unit,
        forEachFrom shouldContinue visit s = visitAll shouldContinue visit items := by
  induction hlen : s.length using Nat.strongRecOn generalizing s found with
  | ind n ih =>
      subst hlen
      have hle := length_skipWhitespace_le s
      rw [forEachFrom_eq] at h
      simp only [forEachFrom_eq _ _ s]
      cases hskip : skipWhitespace s with
      | nil => simp [hskip, Act.fail_run] at h
      | cons b t =>
          rw [hskip] at h hle
          by_cases hclose : b = 93
          · simp only [hclose, if_true, Act.pure_run, Prod.mk.injEq, true_and] at h ⊢
            exact ⟨[], by simp [h], fun visit => by rw [visitAll]⟩
          · simp only [hclose, if_false] at h ⊢
            cases hitem : scanJSONValue (b :: t) with
            | error e =>
                simp [hitem, Act.bind_run, Act.look_run, Act.onlyIf, Act.pure_run, Act.fail_run] at h
            | ok spanned =>
                rw [(scanJSONValue_append hitem).1, List.length_append] at hle
                simp only [hitem, Act.bind_run, Act.look_run, Act.onlyIf, Act.update_run,
                  Bool.not_true, Bool.false_eq_true, if_false, Act.pure_run] at h ⊢
                cases hafter : afterValue 93 "invalid JSON array separator" spanned.2 with
                | error e => simp [hafter, Act.fail_run] at h
                | ok after =>
                    cases after with
                    | none =>
                        simp only [hafter, Act.pure_run, Prod.mk.injEq, true_and] at h ⊢
                        exact ⟨[spanned.1], h.symm, fun visit => rfl⟩
                    | some rest =>
                        have hlt := afterValue_shortens hafter
                        simp only [hafter] at h ⊢
                        obtain ⟨items, hfound, hvisit⟩ := ih _ (by omega) h rfl
                        refine ⟨spanned.1 :: items, by simp [hfound], fun visit => ?_⟩
                        rw [hvisit visit]
                        rfl

theorem forEachArrayValueWhile_eq_visitAll {raw : GoString} {items : List GoString}
    (h : arrayItems raw = .ok items) (visit : GoString → Act LocalityError σ Unit) :
    forEachArrayValueWhile raw shouldContinue visit = visitAll shouldContinue visit items := by
  simp only [arrayItems, forEachArrayValue, forEachArrayValueWhile] at h ⊢
  match htrim : Strings.trimSpace raw with
  | [] => simp [htrim, Act.fail_run] at h
  | [b] => simp [htrim, Act.fail_run] at h
  | b :: c :: t =>
      simp only [htrim] at h ⊢
      by_cases hb : b = 91
      · simp only [hb, if_true] at h ⊢
        split at h
        · rename_i found hfound
          obtain ⟨items', hitems, hvisit⟩ :=
            forEachFrom_eq_visitAll (σ := σ) hfound
          obtain rfl : found = items := by simpa using h
          rw [List.nil_append] at hitems
          rw [hvisit visit, hitems]
        · simp at h
      · simp [hb, Act.fail_run] at h

theorem visitAll_append {α : Type} (visit : α → Act LocalityError σ Unit) (xs ys : List α) :
    visitAll shouldContinue visit (xs ++ ys) =
      (visitAll shouldContinue visit xs >>= fun _ => visitAll shouldContinue visit ys) := by
  induction xs with
  | nil => rfl
  | cons x xs ih => simp only [List.cons_append, visitAll, ih, bind_assoc]

theorem visitAll_keeps {R : σ → σ → Prop} (hrefl : ∀ s, R s s)
    (htrans : ∀ s t u, R s t → R t u → R s u) {α : Type} {visit : α → Act LocalityError σ Unit}
    (hvisit : ∀ item, Act.Keeps R (visit item)) (items : List α) :
    Act.Keeps R (visitAll shouldContinue visit items) := by
  induction items with
  | nil => exact Act.Keeps.pure hrefl ()
  | cons item items ih =>
      refine Act.Keeps.bind htrans (Act.Keeps.look hrefl _) fun goOn => ?_
      refine Act.Keeps.bind htrans (Act.Keeps.onlyIf hrefl _ (Act.Keeps.fail hrefl _)) fun _ => ?_
      exact Act.Keeps.bind htrans (hvisit item) fun _ => ih

end

/-! ### Blocks are only appended -/

def Progress.Grows (p q : Progress) : Prop := p.chain <+: q.chain

theorem Progress.Grows.refl (p : Progress) : p.Grows p := List.prefix_rfl

theorem Progress.Grows.trans {p q r : Progress} (h : p.Grows q) (h' : q.Grows r) : p.Grows r :=
  List.IsPrefix.trans h h'

section

variable (sum64 : GoString → UInt64)

theorem SegmentBuilder.flush_grows (b : SegmentBuilder) :
    b.progress.Grows (b.flush sum64).progress := by
  rw [flush]
  split
  · exact .refl _
  · exact List.prefix_append _ _

theorem SegmentBuilder.fill_grows (b : SegmentBuilder) (data : GoString) :
    b.progress.Grows (b.fill sum64 data).progress := by
  induction data generalizing b with
  | nil => exact .refl _
  | cons x data ih =>
      have hflush := flush_grows sum64 { b with buffer := b.buffer ++ [x] }
      simp only [fill]
      split
      · split
        · exact hflush
        · exact hflush.trans (ih _)
      · exact ih { b with buffer := b.buffer ++ [x] }

theorem segmentWriter_keeps :
    (segmentWriter sum64).Keeps fun b b' => b.progress.Grows b'.progress where
  refl _ := .refl _
  trans _ _ _ := .trans
  write data b := SegmentBuilder.fill_grows sum64
    { b with remaining := b.remaining - (data.take b.inputLimit).length } (data.take b.inputLimit)
  nodes _ b b' h := by
    have : b = b' := by simpa [segmentWriter] using h
    rw [this]
    exact .refl _

theorem writeSegment_grows (order : FieldSort) (metadata : List JsonField) (content : GoString)
    (kind : MessageContentKind) (domain : Bounded GoString) (metadataNodes : ℕ)
    (state : ChatState) : state.progress.Grows
      (writeSegment sum64 order metadata content kind domain metadataNodes state).2.progress := by
  have hkeeps := segmentWriter_keeps sum64
  have hclose : ∀ (e : LocalityError) (b : SegmentBuilder),
      b.progress.Grows (writeSegment.close sum64 e b).progress := by
    intro e b
    rw [writeSegment.close]
    split
    · exact b.flush_grows sum64
    · exact .refl _
  simp only [writeSegment]
  have hmetadata := hkeeps.boundedWriter.canonicalBudgetWriter.writeCanonicalObject order metadata
    ⟨⟨newSegmentBuilder state.progress .message (sum64 domain.target), domain.written, 0⟩,
      metadataNodes⟩
  generalize writeCanonicalObject order _ metadata _ = written at hmetadata ⊢
  split
  · exact hmetadata.trans (hclose _ _)
  · have hcontent := hkeeps.canonicalBudgetWriter.writeMessageContent order content kind
      ⟨written.2.target.target, state.messageCanonicalNodes⟩
    generalize writeMessageContent order _ content kind _ = written' at hcontent ⊢
    split
    · exact hmetadata.trans (hcontent.trans (hclose _ _))
    · exact hmetadata.trans (hcontent.trans (SegmentBuilder.flush_grows sum64 _))

theorem visitMessage_grows (order : FieldSort) (rawMessage : GoString) :
    Act.Keeps (fun s t => s.progress.Grows t.progress) (visitMessage sum64 order rawMessage) := by
  have hrefl : ∀ s : ChatState, s.progress.Grows s.progress := fun s => .refl s.progress
  have htrans : ∀ s t u : ChatState, s.progress.Grows t.progress → t.progress.Grows u.progress →
      s.progress.Grows u.progress := fun s t u h h' => h.trans h'
  refine Act.Keeps.bind htrans (Act.Keeps.look hrefl _) fun nodes => ?_
  refine Act.Keeps.bind htrans (Act.Keeps.onlyIf hrefl _ (Act.Keeps.fail hrefl _)) fun _ => ?_
  refine Act.Keeps.bind htrans (Act.Keeps.lift hrefl _) fun fields => ?_
  refine Act.Keeps.bind htrans (fun s => hrefl s) fun _ => ?_
  refine Act.Keeps.bind htrans (Act.Keeps.onlyIf hrefl _ (Act.Keeps.fail hrefl _)) fun _ => ?_
  split
  · exact Act.Keeps.fail hrefl _
  · refine Act.Keeps.bind htrans (Act.Keeps.look hrefl _) fun state => ?_
    refine Act.Keeps.bind htrans (Act.Keeps.lift hrefl _) fun domain => ?_
    refine Act.Keeps.bind htrans (fun s => hrefl s) fun _ => ?_
    exact fun s => writeSegment_grows sum64 order _ _ _ _ _ s

/-- The loop over messages, with further ones behind them. -/
theorem visitMessages_grows (order : FieldSort) {shouldContinue : ChatState → Bool}
    (items more : List GoString) {state s t : ChatState}
    (hs : exceptCap (visitAll shouldContinue (visitMessage sum64 order) items state) = .ok s)
    (ht : exceptCap (visitAll shouldContinue (visitMessage sum64 order) (items ++ more) state) =
      .ok t) : s.progress.Grows t.progress := by
  have hmore := @visitAll_keeps _ shouldContinue _ (fun s => .refl s.progress)
    (fun s t u h h' => h.trans h') _ _ (visitMessage_grows sum64 order) more
  rw [visitAll_append, Act.bind_run] at ht
  cases hrun : visitAll shouldContinue (visitMessage sum64 order) items state with
  | mk result last =>
      rw [hrun] at hs ht
      cases result with
      | error e =>
          -- the loop has stopped before it reaches the further messages
          rw [hs] at ht
          obtain rfl : s = t := by simpa using ht
          exact .refl _
      | ok u =>
          obtain rfl : last = s := by simpa [exceptCap] using hs
          have hlast := hmore last
          simp only [exceptCap] at ht
          split at ht
          · rename_i heq
            obtain rfl := Except.ok.inj ht
            rwa [heq] at hlast
          · rename_i heq
            split at ht
            · obtain rfl := Except.ok.inj ht
              rwa [heq] at hlast
            · simp at ht

theorem extractChat_eq_some {order : FieldSort} {rawMessages rawTools : GoString} {seed : UInt64}
    {toolMode : ToolMode} {budget : BlockBudget} {items : List GoString} {chains : List (List Block)}
    (hitems : arrayItems rawMessages = .ok items)
    (h : extractChat sum64 order rawMessages rawTools seed toolMode budget = .ok (some chains)) :
    ∃ progress state,
      extractTools sum64 order rawTools toolMode ⟨[], seed, 0, budget⟩ = .ok (some progress) ∧
      exceptCap (visitAll
        (fun s => s.progress.totalTokens < maxPrefixTokens && !s.progress.budget.exhausted)
        (visitMessage sum64 order) items ⟨progress, maxCanonicalNodes⟩) = .ok state ∧
      chains = [state.progress.chain] := by
  rw [extractChat] at h
  cases htools : extractTools sum64 order rawTools toolMode ⟨[], seed, 0, budget⟩ with
  | error e => simp [htools, bind, Except.bind] at h
  | ok tools =>
      cases tools with
      | none => simp [htools, bind, Except.bind, pure, Except.pure] at h
      | some progress =>
          simp only [htools, bind, Except.bind, forEachArrayValueWhile_eq_visitAll hitems] at h
          split at h
          · simp [pure, Except.pure] at h
          · split at h
            · simp at h
            · rename_i state hstate
              simp only [pure, Except.pure, Except.ok.injEq, Option.some.injEq] at h
              exact ⟨progress, state, rfl, hstate, h.symm⟩

theorem locality_eq_some {order : FieldSort} {body : GoString} {options : Options}
    {fields : List JsonField} {messages : GoString} {chains : List (List Block)}
    (hfields : parseObjectFields body = .ok fields)
    (hmessages : fieldValue fields (bytes "messages") = some messages)
    (h : (inspectRequestWithOptions sum64 order body options).locality = some chains) :
    ∃ model seed,
      requiredModel ((fieldValue fields (bytes "model")).getD []) = .ok model ∧
      namespaceHash sum64 ((fieldValue fields (bytes "model")).getD []) model.length
        ((fieldValue fields (bytes "cache_salt")).filter
          fun raw => Strings.trimSpace raw ≠ bytes "null") = .ok seed ∧
      extractChat sum64 order messages ((fieldValue fields (bytes "tools")).getD []) seed
        options.withDefaults.toolMode ⟨options.withDefaults.maxBlocks.toNat,
          options.withDefaults.blockSizeTokens.toNat⟩ = .ok (some chains) := by
  simp only [inspectRequestWithOptions] at h
  split at h
  · simp [Inspection.rejected] at h
  · split at h
    · simp [Inspection.rejected] at h
    · split at h
      · split at h <;> simp [Inspection.rejected] at h
      · simp [Inspection.rejected] at h
      · split at h
        · simp [Inspection.rejected] at h
        · simp only [inspectValidatedRequest, hfields] at h
          split at h
          · simp [Inspection.rejected] at h
          · rename_i model hmodel
            split at h
            · simp [Inspection.rejected] at h
            · rename_i seed hseed
              simp only [hmessages] at h
              refine ⟨model, seed, hmodel, hseed, ?_⟩
              rw [Inspection.accepted.eq_def] at h
              split at h
              · simp at h
              · simp at h
              · simp at h
              · simp at h
              · rename_i hchat
                obtain rfl := Option.some.inj h
                exact hchat

end

/-! ### A longer chat -/

/-- The request `longer` is `body` with further messages appended: the two have the
same model, salt and tools, and the items of the shorter array of messages are the
first ones of the longer array. -/
def Continues (body longer : GoString) : Prop :=
  ∃ fields fields' messages messages' items more,
    parseObjectFields body = .ok fields ∧ parseObjectFields longer = .ok fields' ∧
    (∀ name ∈ [bytes "model", bytes "cache_salt", bytes "tools"],
      fieldValue fields name = fieldValue fields' name) ∧
    fieldValue fields (bytes "messages") = some messages ∧
    fieldValue fields' (bytes "messages") = some messages' ∧
    arrayItems messages = .ok items ∧ arrayItems messages' = .ok (items ++ more)

/-- Prefix monotonicity: the chain of a chat is a prefix of the chain of every chat
that continues it, with its last block, which may be a partial one. -/
theorem chain_isPrefix_of_continues (sum64 : GoString → UInt64) (order : FieldSort)
    (options : Options) {body longer : GoString} {chains chains' : List (List Block)}
    (h : Continues body longer)
    (hbody : (inspectRequestWithOptions sum64 order body options).locality = some chains)
    (hlonger : (inspectRequestWithOptions sum64 order longer options).locality = some chains') :
    ∃ chain chain', chains = [chain] ∧ chains' = [chain'] ∧ chain <+: chain' := by
  obtain ⟨fields, fields', messages, messages', items, more, hfields, hfields', hsame, hmessages,
    hmessages', hitems, hitems'⟩ := h
  obtain ⟨model, seed, hmodel, hseed, hchat⟩ := locality_eq_some sum64 hfields hmessages hbody
  obtain ⟨model', seed', hmodel', hseed', hchat'⟩ :=
    locality_eq_some sum64 hfields' hmessages' hlonger
  rw [← hsame (bytes "model") (by simp)] at hmodel' hseed'
  obtain rfl : model = model' := Except.ok.inj (hmodel.symm.trans hmodel')
  rw [← hsame (bytes "cache_salt") (by simp)] at hseed'
  obtain rfl : seed = seed' := Except.ok.inj (hseed.symm.trans hseed')
  rw [← hsame (bytes "tools") (by simp)] at hchat'
  obtain ⟨progress, state, htools, hrun, rfl⟩ := extractChat_eq_some sum64 hitems hchat
  obtain ⟨progress', state', htools', hrun', rfl⟩ := extractChat_eq_some sum64 hitems' hchat'
  obtain rfl : progress = progress' := by
    simpa using htools.symm.trans htools'
  exact ⟨_, _, rfl, rfl, visitMessages_grows sum64 order items more hrun hrun'⟩

/-- A request with one message. -/
def question : GoString :=
  bytes "\x7b\"model\":\"m\",\"messages\":[\x7b\"role\":\"user\",\"content\":\"hi\"\x7d]\x7d"

/-- The same request once there is an answer. -/
def answered : GoString :=
  bytes "\x7b\"model\":\"m\",\"messages\":[\x7b\"role\":\"user\",\"content\":\"hi\"\x7d, \x7b\"content\":null\x7d]\x7d"

theorem continues_answered : Continues question answered := by
  let message := bytes "\x7b\"role\":\"user\",\"content\":\"hi\"\x7d"
  let answer := bytes "\x7b\"content\":null\x7d"
  let model : JsonField := ⟨bytes "model", bytes "\"model\"", bytes "\"m\""⟩
  let messages (value : GoString) : JsonField := ⟨bytes "messages", bytes "\"messages\"", value⟩
  refine ⟨[model, messages (91 :: (message ++ [93]))],
    [model, messages (91 :: (message ++ (bytes ", " ++ (answer ++ [93]))))], _, _, [message],
    [answer], ?_, ?_, ?_, rfl, rfl, ?_, ?_⟩ <;> decide +kernel

/-- Both requests have a chain, with blocks of sixteen bytes. -/
theorem chain_isPrefix_answered : Continues question answered ∧ ∃ chain chain',
    (inspectRequestWithOptions XxHash.sum64 mergeFields question ⟨.unset, 0, 4⟩).locality =
      some [chain] ∧
    (inspectRequestWithOptions XxHash.sum64 mergeFields answered ⟨.unset, 0, 4⟩).locality =
      some [chain'] ∧ chain <+: chain' := by
  have hbody : (inspectRequestWithOptions XxHash.sum64 mergeFields question
      ⟨.unset, 0, 4⟩).locality.isSome = true := by decide +kernel
  have hlonger : (inspectRequestWithOptions XxHash.sum64 mergeFields answered
      ⟨.unset, 0, 4⟩).locality.isSome = true := by decide +kernel
  obtain ⟨chains, hchains⟩ := Option.isSome_iff_exists.mp hbody
  obtain ⟨chains', hchains'⟩ := Option.isSome_iff_exists.mp hlonger
  obtain ⟨chain, chain', rfl, rfl, hchain⟩ := chain_isPrefix_of_continues XxHash.sum64 mergeFields
    ⟨.unset, 0, 4⟩ continues_answered hchains hchains'
  exact ⟨continues_answered, chain, chain', hchains, hchains', hchain⟩

end Higress.Picker
