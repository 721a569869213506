import Higress.Lib.Text

/-!
HTTP filters and the proxy that runs them. A filter gets the header fields of a request
in one callback and its body in any number of others, and says after each of them whether
the request goes on. It may change the header fields, and it may answer the request
itself, after which there are no more callbacks.

A request without a body has the header callback only. A body is over with the callback
whose data ends the stream, unless trailers follow it; a filter that does not look at
trailers lets them through, together with all data it has held back.
-/

namespace Higress.Lib.HttpFilter

/-- Header fields in order; the names are in lower case. -/
abbrev Headers := List (GoString × GoString)

namespace Headers

/-- The value of a header, the empty one if it is missing. -/
def get (hs : Headers) (name : GoString) : GoString :=
  ((hs.find? fun h => h.1 == lower name).map Prod.snd).getD []

/-- All values of a header. -/
def values (hs : Headers) (name : GoString) : List GoString :=
  (hs.filter fun h => h.1 == lower name).map Prod.snd

def remove (hs : Headers) (name : GoString) : Headers := hs.filter fun h => h.1 != lower name

def add (hs : Headers) (name value : GoString) : Headers := hs ++ [(lower name, value)]

theorem get_remove (hs : Headers) (name key : GoString) :
    (hs.remove name).get key = if lower key = lower name then [] else hs.get key := by
  rw [remove, get, get, List.find?_filter]
  split
  · rename_i heq
    have hnone : (fun h : GoString × GoString =>
        decide ((h.1 != lower name) = true ∧ (h.1 == lower key) = true)) =
        fun _ => false := by
      ext h
      simp [heq]
    rw [hnone, List.find?_eq_none.mpr (by simp)]
    rfl
  · rename_i hne
    have hsame : (fun h : GoString × GoString =>
        decide ((h.1 != lower name) = true ∧ (h.1 == lower key) = true)) =
        fun h => h.1 == lower key := by
      ext h
      by_cases hk : h.1 = lower key <;> simp [hk, hne]
    rw [hsame]

@[simp] theorem values_remove (hs : Headers) (name : GoString) :
    (hs.remove name).values name = [] := by
  simp [remove, values, List.filter_filter]

theorem values_remove_of_ne (hs : Headers) {name key : GoString} (h : lower key ≠ lower name) :
    (hs.remove name).values key = hs.values key := by
  rw [remove, values, values, List.filter_filter]
  congr 2
  ext field
  by_cases hkey : field.1 = lower key <;> simp [hkey, h]

@[simp] theorem values_add (hs : Headers) (name value : GoString) :
    (hs.add name value).values name = hs.values name ++ [value] := by
  simp [add, values]

end Headers

inductive HeadersStatus
  | goOn
  | stopIteration
deriving DecidableEq

inductive DataStatus
  | goOn
  | stopIterationAndBuffer
  | stopIterationNoBuffer
deriving DecidableEq

/-- What `sendLocalResponse` is called with. -/
structure LocalResponse where
  code : ℕ
  details : GoString
  body : GoString
  headers : Headers

/-- A request as its filter sees it: the header fields, the answer that has been given to
it, and what the filter keeps for it. -/
structure Stream (σ : Type) where
  headers : Headers
  answer : Option LocalResponse := none
  ctx : σ

/-- The answer that a filter gives itself. -/
def Stream.sendLocalResponse {σ : Type} (s : Stream σ) (response : LocalResponse) : Stream σ :=
  { s with answer := some response }

structure Filter (σ : Type) where
  onRequestHeaders : Stream σ → HeadersStatus × Stream σ
  /-- the callback for some data, with its size, the data held back so far and this, and
  whether it ends the stream -/
  onRequestBody : ℕ → GoString → Bool → Stream σ → DataStatus × Stream σ

/-- What a client sends. -/
structure Request where
  headers : Headers
  chunks : List GoString := []
  trailers : Bool := false

def Request.body (r : Request) : GoString := r.chunks.flatten

/-- What becomes of a request. When it goes on, the header fields are those it had when the
header callback let it go on. -/
inductive Outcome (σ : Type)
  | forwarded (headers : Headers) (ctx : σ)
  | answered (response : LocalResponse) (ctx : σ)
  | held (ctx : σ)

namespace Filter

variable {σ : Type} (f : Filter σ)

/-- The body callbacks; `buffer` is what is held back. -/
def runBody (trailers : Bool) : List GoString → GoString → Stream σ → DataStatus × Stream σ
  | [], _, s => (.goOn, s)
  | chunk :: rest, buffer, s =>
      let done := f.onRequestBody chunk.length (buffer ++ chunk) (rest.isEmpty && !trailers) s
      if done.2.answer.isSome || rest.isEmpty then done
      else match done.1 with
        | .goOn => runBody trailers rest [] done.2
        | .stopIterationAndBuffer => runBody trailers rest (buffer ++ chunk) done.2
        | .stopIterationNoBuffer => runBody trailers rest buffer done.2

def run (r : Request) (ctx : σ) : Outcome σ :=
  let first := f.onRequestHeaders ⟨r.headers, none, ctx⟩
  match first.2.answer with
  | some response => .answered response first.2.ctx
  | none =>
      match first.1 with
      | .stopIteration => .held first.2.ctx
      | .goOn =>
          let last := f.runBody r.trailers r.chunks [] first.2
          match last.2.answer with
          | some response => .answered response last.2.ctx
          | none =>
              if last.1 = .goOn || r.trailers then .forwarded first.2.headers last.2.ctx
              else .held last.2.ctx

/-! ### Rules for runs -/

section Rules

variable {f} {s : Stream σ}

/-- A filter that has no interest in the body. -/
theorem runBody_of_pass (hpass : ∀ size buffer endStream,
    f.onRequestBody size buffer endStream s = (.goOn, s)) (hanswer : s.answer = none)
    (trailers : Bool) (chunks : List GoString) (buffer : GoString) :
    f.runBody trailers chunks buffer s = (.goOn, s) := by
  induction chunks generalizing buffer with
  | nil => rfl
  | cons chunk rest ih => simp [runBody, hpass, hanswer, ih]

/-- A filter that holds the body back until the stream ends, as long as no more has come
than `limit` allows: only the last callback matters, and it sees the whole body. -/
theorem runBody_of_hold {I : GoString → Stream σ → Prop} (limit : ℕ → Prop)
    (hlimit : ∀ n k, limit (n + k) → limit n)
    (hhold : ∀ chunk buffer s, I buffer s → limit (buffer ++ chunk).length →
      (f.onRequestBody chunk.length (buffer ++ chunk) false s).1 = .stopIterationAndBuffer ∧
        (f.onRequestBody chunk.length (buffer ++ chunk) false s).2.answer = none ∧
        I (buffer ++ chunk) (f.onRequestBody chunk.length (buffer ++ chunk) false s).2)
    (trailers : Bool) (init : List GoString) (last : GoString) (buffer : GoString) (hs : I buffer s)
    (hle : limit (buffer ++ init.flatten).length) :
    ∃ s', I (buffer ++ init.flatten) s' ∧ f.runBody trailers (init ++ [last]) buffer s =
      f.onRequestBody last.length (buffer ++ init.flatten ++ last) (!trailers) s' := by
  induction init generalizing buffer s with
  | nil => exact ⟨s, by simpa using hs, by simp [runBody]⟩
  | cons chunk rest ih =>
      rw [List.flatten_cons, ← List.append_assoc] at hle
      have hone : limit (buffer ++ chunk).length := by
        rw [List.length_append] at hle
        exact hlimit _ _ hle
      obtain ⟨hstatus, hanswer, hnext⟩ := hhold chunk buffer s hs hone
      obtain ⟨s', hs', hrun⟩ := ih _ hnext hle
      refine ⟨s', by simpa using hs', ?_⟩
      simp only [List.append_assoc, List.flatten_cons] at hrun ⊢
      rw [← hrun, List.cons_append, runBody]
      have hmore : (rest ++ [last]).isEmpty = false := by simp
      simp [hmore, hanswer, hstatus]

/-- What becomes of a request whose header callback gives no answer and lets it go on. -/
theorem run_of_goOn {r : Request} {ctx : σ}
    (hfirst : f.onRequestHeaders ⟨r.headers, none, ctx⟩ = (.goOn, s)) (hanswer : s.answer = none) :
    f.run r ctx =
      (match (f.runBody r.trailers r.chunks [] s).2.answer with
        | some response => .answered response (f.runBody r.trailers r.chunks [] s).2.ctx
        | none =>
            if (f.runBody r.trailers r.chunks [] s).1 = .goOn || r.trailers then
              .forwarded s.headers (f.runBody r.trailers r.chunks [] s).2.ctx
            else .held (f.runBody r.trailers r.chunks [] s).2.ctx) := by
  simp only [run, hfirst, hanswer]

/-- What becomes of a request that the header callback answers. -/
theorem run_of_answer {r : Request} {ctx : σ}
    (hanswer : (f.onRequestHeaders ⟨r.headers, none, ctx⟩).2.answer.isSome = true) :
    ∃ response ctx', f.run r ctx = .answered response ctx' := by
  obtain ⟨response, hresponse⟩ := Option.isSome_iff_exists.mp hanswer
  refine ⟨response, (f.onRequestHeaders ⟨r.headers, none, ctx⟩).2.ctx, ?_⟩
  simp [run, hresponse]

end Rules

end Filter

end Higress.Lib.HttpFilter
