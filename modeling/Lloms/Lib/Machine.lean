import Mathlib.Data.List.Basic
import Mathlib.Data.List.Induction
import Mathlib.Tactic.Common

/-! Runs of a deterministic component. A component is a function
`step : σ → ι → σ × ο`: the state after one call and what the call returned.
`exec` is the state a list of calls leads to, `trace` the list of executed
calls with the states around them, and the rules at the end turn one-step
facts into facts about every run. -/
namespace Lloms.Lib

universe u v w x

/-- One executed call: the state it was made in, the input, what it returned
and the state it left behind. -/
structure Event (σ : Type u) (ι : Type v) (ο : Type w) where
  pre : σ
  input : ι
  output : ο
  post : σ

/-! ## Lists that grow at the end -/

section Concat

variable {α : Type u} {xs before : List α} {x : α}

/-- Where a list with one more element is cut in two. -/
theorem concat_eq_append {block : List α} (h : xs ++ [x] = before ++ block) :
    (block = [] ∧ before = xs ++ [x]) ∨ ∃ block', block = block' ++ [x] ∧ xs = before ++ block' := by
  rcases List.eq_nil_or_concat block with rfl | ⟨block', y, rfl⟩
  · exact .inl ⟨rfl, by simpa using h.symm⟩
  · rw [List.concat_eq_append, ← List.append_assoc] at h
    obtain ⟨hxs, hx⟩ := List.append_inj' h rfl
    obtain rfl : x = y := by simpa using hx
    exact .inr ⟨block', List.concat_eq_append, hxs⟩

/-- An element of a list with one more element is the last one, or was there. -/
theorem concat_eq_append_cons {a : α} {after : List α} (h : xs ++ [x] = before ++ a :: after) :
    (before = xs ∧ a = x ∧ after = []) ∨
      ∃ after', after = after' ++ [x] ∧ xs = before ++ a :: after' := by
  rcases concat_eq_append h with ⟨hnil, -⟩ | ⟨block, hblock, hxs⟩
  · cases hnil
  · cases block with
    | nil =>
      obtain ⟨rfl, rfl⟩ := List.cons.inj hblock
      exact .inl ⟨by simpa using hxs.symm, rfl, rfl⟩
    | cons b block =>
      obtain ⟨rfl, rfl⟩ := List.cons.inj hblock
      exact .inr ⟨block, rfl, hxs⟩

end Concat

section Runs

variable {σ : Type u} {ι : Type v} {ο : Type w} (step : σ → ι → σ × ο)

def event (s : σ) (i : ι) : Event σ ι ο := ⟨s, i, (step s i).2, (step s i).1⟩

@[simp] theorem event_pre (s : σ) (i : ι) : (event step s i).pre = s := rfl
@[simp] theorem event_input (s : σ) (i : ι) : (event step s i).input = i := rfl
@[simp] theorem event_output (s : σ) (i : ι) : (event step s i).output = (step s i).2 := rfl
@[simp] theorem event_post (s : σ) (i : ι) : (event step s i).post = (step s i).1 := rfl

def exec (s : σ) : List ι → σ
  | [] => s
  | i :: is => exec (step s i).1 is

def trace (s : σ) : List ι → List (Event σ ι ο)
  | [] => []
  | i :: is => event step s i :: trace (step s i).1 is

/-- Every state a run goes through, the first and the last included. -/
def states (s : σ) : List ι → List σ
  | [] => [s]
  | i :: is => s :: states (step s i).1 is

theorem exec_append (s : σ) (is js : List ι) :
    exec step s (is ++ js) = exec step (exec step s is) js := by
  induction is generalizing s with
  | nil => rfl
  | cons i is ih => exact ih _

theorem trace_append (s : σ) (is js : List ι) :
    trace step s (is ++ js) = trace step s is ++ trace step (exec step s is) js := by
  induction is generalizing s with
  | nil => rfl
  | cons i is ih => simp only [List.cons_append, trace, exec, ih]

theorem exec_concat (s : σ) (is : List ι) (i : ι) :
    exec step s (is ++ [i]) = (step (exec step s is) i).1 := exec_append step s is [i]

theorem trace_concat (s : σ) (is : List ι) (i : ι) :
    trace step s (is ++ [i]) = trace step s is ++ [event step (exec step s is) i] :=
  trace_append step s is [i]

theorem exec_mem_states (s : σ) (is : List ι) : exec step s is ∈ states step s is := by
  induction is generalizing s with
  | nil => simp [exec, states]
  | cons i is ih => exact List.mem_cons_of_mem _ (ih _)

/-- What is read off the answers of a history that grows by one event. -/
theorem filterMap_output_concat {β : Type x} (f : ο → Option β) (h : List (Event σ ι ο))
    (e : Event σ ι ο) : (h ++ [e]).filterMap (fun e => f e.output) =
      h.filterMap (fun e => f e.output) ++ (f e.output).toList := by
  rw [List.filterMap_append]
  cases he : f e.output <;> simp [he]

/-- An event of a run is the step its own input takes from its own state. -/
theorem event_of_mem_trace (s : σ) (is : List ι) (e : Event σ ι ο)
    (he : e ∈ trace step s is) : e = event step e.pre e.input := by
  induction is generalizing s with
  | nil => simp [trace] at he
  | cons i is ih =>
    rcases List.mem_cons.mp he with rfl | he
    · rfl
    · exact ih _ he

theorem trace_inputs (s : σ) (is : List ι) : (trace step s is).map Event.input = is := by
  induction is generalizing s with
  | nil => rfl
  | cons i is ih => simp only [trace, List.map_cons, event_input, ih]

theorem input_mem_of_mem_trace (s : σ) (is : List ι) (e : Event σ ι ο)
    (he : e ∈ trace step s is) : e.input ∈ is := by
  rw [← trace_inputs step s is]
  exact List.mem_map_of_mem he

/-! ## Induction rules -/

/-- What every step keeps holds at the end of every run. -/
theorem exec_induction {I : σ → Prop} (hstep : ∀ s i, I s → I (step s i).1)
    (s : σ) (hs : I s) (is : List ι) : I (exec step s is) := by
  induction is generalizing s with
  | nil => exact hs
  | cons i is ih => exact ih _ (hstep s i hs)

/-- The same for an invariant that also speaks about the calls executed so
far, with a side condition `P` that every step of the run meets. -/
theorem history_induction {P : σ → ι → Prop} {I : List (Event σ ι ο) → σ → Prop}
    (hstep : ∀ h s i, P s i → I h s → I (h ++ [event step s i]) (step s i).1)
    (s : σ) (hs : I [] s) (is : List ι)
    (hok : ∀ e ∈ trace step s is, P e.pre e.input) :
    I (trace step s is) (exec step s is) := by
  induction is using List.reverseRecOn with
  | nil => exact hs
  | append_singleton is i ih =>
    rw [trace_concat] at hok ⊢
    rw [exec_concat]
    have hi : P (exec step s is) i := hok (event step (exec step s is) i) (by simp)
    exact hstep _ _ _ hi (ih fun e he => hok e (by simp [he]))

/-- A fact about each event and the events before it, proved from an invariant
that holds whenever the event starts. -/
theorem event_of_history {P : σ → ι → Prop} {I : List (Event σ ι ο) → σ → Prop}
    {Q : List (Event σ ι ο) → Event σ ι ο → Prop}
    (hstep : ∀ h s i, P s i → I h s → I (h ++ [event step s i]) (step s i).1)
    (hQ : ∀ h s i, P s i → I h s → Q h (event step s i))
    (s : σ) (hs : I [] s) (is : List ι)
    (hok : ∀ e ∈ trace step s is, P e.pre e.input)
    (h t : List (Event σ ι ο)) (e : Event σ ι ο) (hrun : trace step s is = h ++ e :: t) :
    Q h e := by
  induction is using List.reverseRecOn generalizing t with
  | nil => simp [trace] at hrun
  | append_singleton is i ih =>
    rw [trace_concat] at hok hrun
    have hok' : ∀ e ∈ trace step s is, P e.pre e.input := fun e he => hok e (by simp [he])
    rcases concat_eq_append_cons hrun with ⟨rfl, rfl, -⟩ | ⟨t', -, hrun'⟩
    · have hi : P (exec step s is) i := hok (event step (exec step s is) i) (by simp)
      exact hQ _ _ _ hi (history_induction step hstep s hs is hok')
    · exact ih hok' t' hrun'

/-- A run all of whose steps meet `P` stays inside what such steps keep. -/
theorem states_induction {P : σ → ι → Prop} {I : σ → Prop}
    (hstep : ∀ s i, P s i → I s → I (step s i).1) (s : σ) (hs : I s) (is : List ι)
    (hok : ∀ e ∈ trace step s is, P e.pre e.input) : ∀ t ∈ states step s is, I t := by
  induction is generalizing s with
  | nil => simpa [states] using hs
  | cons i is ih =>
    simp only [trace, List.forall_mem_cons] at hok
    simp only [states, List.forall_mem_cons]
    exact ⟨hs, ih _ (hstep s i hok.1 hs) hok.2⟩

/-- Conversely, if a step that stays inside `I` meets `P`, then a run inside `I`
has only such steps. `J` is what the inputs in `A` keep on the way. -/
theorem steps_of_states {P : σ → ι → Prop} {I J : σ → Prop} {A : ι → Prop}
    (hkeep : ∀ s i, A i → J s → J (step s i).1)
    (hback : ∀ s i, A i → J s → I s → I (step s i).1 → P s i)
    (s : σ) (hs : J s) (is : List ι) (hin : ∀ i ∈ is, A i)
    (h : ∀ t ∈ states step s is, I t) : ∀ e ∈ trace step s is, P e.pre e.input := by
  induction is generalizing s with
  | nil => simp [trace]
  | cons i is ih =>
    simp only [List.forall_mem_cons] at hin
    simp only [states, List.forall_mem_cons] at h
    have hnext : I (step s i).1 := h.2 _ (by cases is <;> simp [states])
    simp only [trace, List.forall_mem_cons]
    exact ⟨hback s i hin.1 hs h.1 hnext, ih _ (hkeep s i hin.1 hs) hin.2 h.2⟩

/-! ## Runs there are -/

/-- Some run has a history and an end of which `P` holds. -/
def Reached (P : List (Event σ ι ο) → σ → Prop) (s : σ) : Prop :=
  ∃ is, P (trace step s is) (exec step s is)

variable {P Q : List (Event σ ι ο) → σ → Prop} {s : σ}

theorem Reached.start (h : P [] s) : Reached step P s := ⟨[], h⟩

theorem Reached.mono (h : Reached step P s) (hPQ : ∀ h t, P h t → Q h t) : Reached step Q s := by
  obtain ⟨is, his⟩ := h
  exact ⟨is, hPQ _ _ his⟩

theorem Reached.next (h : Reached step P s) (i : ι)
    (hstep : ∀ h t, P h t → Q (h ++ [event step t i]) (step t i).1) : Reached step Q s := by
  obtain ⟨is, his⟩ := h
  refine ⟨is ++ [i], ?_⟩
  rw [trace_concat, exec_concat]
  exact hstep _ _ his

end Runs

/-! ## Two runs side by side -/

/-- If steps from related states answer alike and lead to related states, so do
whole runs over the same inputs. `P` is what the steps of the first run meet. -/
theorem lockstep {σ : Type u} {τ : Type u} {ι : Type v} {ο : Type w} (step : σ → ι → σ × ο)
    (step' : τ → ι → τ × ο) {P : σ → ι → Prop} {R : σ → τ → Prop}
    (hstep : ∀ s t i, P s i → R s t →
      R (step s i).1 (step' t i).1 ∧ (step s i).2 = (step' t i).2)
    (s : σ) (t : τ) (hst : R s t) (is : List ι) (hok : ∀ e ∈ trace step s is, P e.pre e.input) :
    R (exec step s is) (exec step' t is) ∧
      (trace step s is).map Event.output = (trace step' t is).map Event.output := by
  induction is generalizing s t with
  | nil => exact ⟨hst, rfl⟩
  | cons i is ih =>
    simp only [trace, List.forall_mem_cons] at hok
    obtain ⟨hnext, hout⟩ := hstep s t i hok.1 hst
    obtain ⟨hend, houts⟩ := ih _ _ hnext hok.2
    refine ⟨hend, ?_⟩
    simp only [trace, List.map_cons, event_output, hout, houts]

/-- The same when the second run gets changed inputs and gives changed answers. -/
theorem lockstep_map {σ : Type u} {τ : Type u} {ι : Type v} {ι' : Type v} {ο : Type w} {ο' : Type w}
    (step : σ → ι → σ × ο) (step' : τ → ι' → τ × ο') {f : ι → ι'} {g : ο → ο'} {A : ι → Prop}
    {R : σ → τ → Prop} (hstep : ∀ s t i, A i → R s t →
      R (step s i).1 (step' t (f i)).1 ∧ (step' t (f i)).2 = g (step s i).2)
    (s : σ) (t : τ) (hst : R s t) (is : List ι) (hin : ∀ i ∈ is, A i) :
    R (exec step s is) (exec step' t (is.map f)) ∧
      (trace step' t (is.map f)).map Event.output =
        (trace step s is).map fun e => g e.output := by
  induction is generalizing s t with
  | nil => exact ⟨hst, rfl⟩
  | cons i is ih =>
    obtain ⟨hi, his⟩ := List.forall_mem_cons.mp hin
    obtain ⟨hnext, hout⟩ := hstep s t i hi hst
    obtain ⟨hend, houts⟩ := ih _ _ hnext his
    refine ⟨hend, ?_⟩
    simp only [List.map_cons, trace, event_output, hout, houts]

/-! ## Folds that change a value once -/

section Folds

variable {σ : Type u} {ι : Type v} {f : σ → ι → σ} {v₀ v₁ : σ}
  (hstay : ∀ i, f v₀ i = v₀ ∨ f v₀ i = v₁) (hend : ∀ i, f v₁ i = v₁)
include hstay hend

/-- A fold whose steps can only take `v₀` to `v₁`, and leave `v₁` alone. -/
theorem foldl_two (is : List ι) : is.foldl f v₀ = v₀ ∨ is.foldl f v₀ = v₁ := by
  induction is with
  | nil => exact .inl rfl
  | cons i is ih =>
    rw [List.foldl_cons]
    rcases hstay i with hi | hi
    · rw [hi]
      exact ih
    · rw [hi]
      exact .inr (List.foldl_fixed' hend is)

/-- It ends in `v₁` once it has met an element that takes it there. -/
theorem foldl_once {i₀ : ι} (hhit : f v₀ i₀ = v₁) {is : List ι} (hmem : i₀ ∈ is) :
    is.foldl f v₀ = v₁ := by
  obtain ⟨as, bs, rfl⟩ := List.append_of_mem hmem
  rw [List.foldl_append, List.foldl_cons]
  rcases foldl_two hstay hend as with h | h
  · rw [h, hhit]
    exact List.foldl_fixed' hend bs
  · rw [h, hend]
    exact List.foldl_fixed' hend bs

end Folds

/-! ## Loops that stop at an error -/

/-- A loop `f` that skips what does not concern it (`M`), carries out an element
that is in order (`K`) and ends at the first other one, has carried out those in
front of it. `J` is what carrying out keeps. -/
theorem loop_until {σ : Type u} {ι : Type v} {ε : Type w} {f : σ → List ι → σ × Option ε}
    {M K : ι → Prop} [DecidablePred M] [DecidablePred K] {g : σ → ι → σ} {J : σ → Prop}
    (hnil : ∀ s, f s [] = (s, none))
    (hskip : ∀ s i is, ¬ M i → f s (i :: is) = f s is)
    (hstop : ∀ s i is, J s → M i → ¬ K i → ∃ e, f s (i :: is) = (s, some e))
    (hgo : ∀ s i is, J s → M i → K i → J (g s i) ∧ f s (i :: is) = f (g s i) is)
    (s : σ) (hs : J s) (is : List ι) :
    (f s is).1 = ((is.filter fun i => M i).takeWhile fun i => K i).foldl g s ∧
      ((f s is).2 = none ↔ ∀ i ∈ is.filter fun i => M i, K i) := by
  induction is generalizing s with
  | nil => simp [hnil]
  | cons i is ih =>
    by_cases hmine : M i
    · rw [List.filter_cons_of_pos (by simpa using hmine), List.forall_mem_cons]
      by_cases hok : K i
      · obtain ⟨hnext, heq⟩ := hgo s i is hs hmine hok
        obtain ⟨hstate, hnone⟩ := ih _ hnext
        rw [heq, List.takeWhile_cons_of_pos (by simpa using hok), List.foldl_cons]
        exact ⟨hstate, hnone.trans ⟨fun h => ⟨hok, h⟩, And.right⟩⟩
      · obtain ⟨e, heq⟩ := hstop s i is hs hmine hok
        rw [heq, List.takeWhile_cons_of_neg (by simpa using hok)]
        exact ⟨rfl, by simp [hok]⟩
    · rw [hskip s i is hmine, List.filter_cons_of_neg (by simpa using hmine)]
      exact ih s hs

/-! ## What happened last -/

/-- Some element satisfies `P` and no later one satisfies `Q`. -/
def Since {α : Type u} (P Q : α → Prop) (h : List α) : Prop :=
  ∃ before e after, h = before ++ e :: after ∧ P e ∧ ∀ e' ∈ after, ¬ Q e'

section Last

variable {α : Type u} {P Q : α → Prop}

theorem not_since_nil : ¬ Since P Q [] := by
  rintro ⟨before, e, after, h, -⟩
  simp at h

theorem since_concat (h : List α) (e : α) : Since P Q (h ++ [e]) ↔ P e ∨ (Since P Q h ∧ ¬ Q e) := by
  constructor
  · rintro ⟨before, a, after, heq, ha, hafter⟩
    rcases concat_eq_append_cons heq with ⟨-, rfl, -⟩ | ⟨after, rfl, rfl⟩
    · exact .inl ha
    · exact .inr ⟨⟨before, a, after, rfl, ha, fun e' he' => hafter e' (by simp [he'])⟩,
        hafter e (by simp)⟩
  · rintro (he | ⟨⟨before, a, after, rfl, ha, hafter⟩, he⟩)
    · exact ⟨h, e, [], rfl, he, by simp⟩
    · refine ⟨before, a, after ++ [e], by simp, ha, fun e' he' => ?_⟩
      rcases List.mem_append.mp he' with he' | he'
      · exact hafter e' he'
      · obtain rfl := List.mem_singleton.mp he'
        exact he

/-- Every element stands where `R` allows it, after the ones before it. -/
def EachAfter (R : List α → α → Prop) (h : List α) : Prop :=
  ∀ before e after, h = before ++ e :: after → R before e

theorem eachAfter_concat {R : List α → α → Prop} (h : List α) (e : α) :
    EachAfter R (h ++ [e]) ↔ EachAfter R h ∧ R h e := by
  constructor
  · intro hall
    refine ⟨fun before a after hsplit => ?_, hall h e [] rfl⟩
    exact hall before a (after ++ [e]) (by simp [hsplit])
  · rintro ⟨hall, he⟩ before a after hsplit
    rcases concat_eq_append_cons hsplit with ⟨rfl, rfl, -⟩ | ⟨after, -, hh⟩
    · exact he
    · exact hall before a after hh

end Last

end Lloms.Lib
