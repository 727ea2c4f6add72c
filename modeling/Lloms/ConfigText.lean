import Lloms.Config

/-! What a config file may look like, and what it is read as. A file is written as
entries `key: value` with any whitespace around both and any comment behind them,
mixed with lines that carry no entry; reading gives back the entries, of several with
one key the last. -/
namespace Lloms
open Lib

/-! ## Files -/

/-- A text that whitespace around it can be told from. -/
def Trimmed (s : Text) : Prop :=
  (∀ c ∈ s.head?, isSpace c = false) ∧ ∀ c ∈ s.getLast?, isSpace c = false

/-- An entry that can be written down. -/
structure Pair where
  key : Text
  value : Text
  key_ne : key ≠ []
  key_ok : ∀ c ∈ key, c ≠ '#' ∧ c ≠ ':' ∧ c ≠ '\n'
  value_ok : ∀ c ∈ value, c ≠ '#' ∧ c ≠ '\n'
  key_trimmed : Trimmed key
  value_trimmed : Trimmed value

/-- Whitespace inside a line. -/
structure Blank where
  text : Text
  ok : ∀ c ∈ text, isSpace c = true ∧ c ≠ '\n'

/-- What follows a `#`, or no comment. -/
structure Comment where
  text : Option Text
  ok : ∀ s ∈ text, '\n' ∉ s

def Comment.print (c : Comment) : Text :=
  match c.text with
  | none => []
  | some s => '#' :: s

/-- An entry with its surroundings, or a line without a colon in front of its
comment: blank, a comment only, or anything else. -/
inductive Line where
  | entry (p : Pair) (before afterKey beforeValue afterValue : Blank) (comment : Comment)
  | other (text : Text) (one_line : '\n' ∉ text) (no_colon : ':' ∉ text.takeWhile (· ≠ '#'))

namespace Line

def print : Line → Text
  | .entry p before afterKey beforeValue afterValue comment =>
    (before.text ++ p.key ++ afterKey.text) ++
      ':' :: (beforeValue.text ++ p.value ++ afterValue.text) ++ comment.print
  | .other text _ _ => text

def pair? : Line → Option Pair
  | .entry p _ _ _ _ _ => some p
  | .other _ _ _ => none

end Line

/-- The file, with or without a final newline. -/
def printLines (final : Bool) : List Line → Text
  | [] => if final then ['\n'] else []
  | [l] => l.print ++ if final then ['\n'] else []
  | l :: l' :: ls => l.print ++ '\n' :: printLines final (l' :: ls)

/-- The entries of a file, in order. -/
def pairs (ls : List Line) : List Pair := ls.filterMap Line.pair?

/-! ## Whitespace -/

theorem dropWhile_pad {b s : Text} (hb : ∀ c ∈ b, isSpace c = true)
    (hs : ∀ c ∈ s.head?, isSpace c = false) : (b ++ s).dropWhile isSpace = s := by
  rw [List.dropWhile_append_of_pos hb]
  cases s with
  | nil => rfl
  | cons c s =>
    have hc : isSpace c = false := hs c rfl
    exact List.dropWhile_cons_of_neg (by simp [hc])

/-- The same from the other end. -/
theorem rdropWhile_pad {b s : Text} (hb : ∀ c ∈ b, isSpace c = true)
    (hs : ∀ c ∈ s.getLast?, isSpace c = false) : (s ++ b).rdropWhile isSpace = s := by
  rw [List.rdropWhile, List.reverse_append,
    dropWhile_pad (fun c hc => hb c (List.mem_reverse.mp hc)) (by rwa [List.head?_reverse]),
    List.reverse_reverse]

theorem trim_pad {s : Text} (h : Trimmed s) (b b' : Blank) : trim (b.text ++ s ++ b'.text) = s := by
  obtain ⟨hhead, hlast⟩ := h
  have hb : ∀ c ∈ b.text, isSpace c = true := fun c hc => (b.ok c hc).1
  have hb' : ∀ c ∈ b'.text, isSpace c = true := fun c hc => (b'.ok c hc).1
  rw [trim, List.append_assoc]
  cases s with
  | nil =>
    have hall : ∀ c ∈ b.text ++ b'.text, isSpace c = true := fun c hc =>
      (List.mem_append.mp hc).elim (hb c) (hb' c)
    rw [List.nil_append, List.dropWhile_eq_nil_iff.mpr hall]
    rfl
  | cons c s =>
    rw [dropWhile_pad hb (by simpa using hhead), rdropWhile_pad hb' hlast]

/-! ## One line -/

/-- A comment is cut off, from its `#` on. -/
theorem takeWhile_comment {s : Text} (h : ∀ c ∈ s, c ≠ '#') (comment : Comment) :
    (s ++ comment.print).takeWhile (· ≠ '#') = s := by
  rw [List.takeWhile_append_of_pos (by simpa using h)]
  have hnil : comment.print.takeWhile (· ≠ '#') = [] := by
    unfold Comment.print
    cases comment.text with
    | none => rfl
    | some t => simp
  rw [hnil, List.append_nil]

/-- The first colon ends the key. -/
theorem idxOf?_colon {s : Text} (h : ∀ c ∈ s, c ≠ ':') (rest : Text) :
    (s ++ ':' :: rest).idxOf? ':' = some s.length := by
  induction s with
  | nil => rfl
  | cons c s ih =>
    obtain ⟨hc, hs⟩ := List.forall_mem_cons.mp h
    rw [List.cons_append, List.idxOf?_cons, if_neg (by simpa using hc), ih hs]
    rfl

theorem Blank.ne {b : Blank} {c d : Char} (hc : c ∈ b.text) (hd : isSpace d = false) : c ≠ d := by
  rintro rfl
  exact absurd (b.ok c hc).1 (by simp [hd])

theorem Pair.padded_key_ne (p : Pair) (b b' : Blank) {d : Char} (hd : d = '#' ∨ d = ':') :
    ∀ c ∈ b.text ++ p.key ++ b'.text, c ≠ d := by
  intro c hc
  have hspace : isSpace d = false := by
    rcases hd with rfl | rfl
    · decide
    · decide
  rcases List.mem_append.mp hc with hc | hc
  · rcases List.mem_append.mp hc with hc | hc
    · exact Blank.ne hc hspace
    · obtain ⟨h1, h2, -⟩ := p.key_ok c hc
      rcases hd with rfl | rfl
      · exact h1
      · exact h2
  · exact Blank.ne hc hspace

theorem Pair.padded_value_ne (p : Pair) (b b' : Blank) :
    ∀ c ∈ b.text ++ p.value ++ b'.text, c ≠ '#' := by
  intro c hc
  rcases List.mem_append.mp hc with hc | hc
  · rcases List.mem_append.mp hc with hc | hc
    · exact Blank.ne hc (by decide)
    · exact (p.value_ok c hc).1
  · exact Blank.ne hc (by decide)

namespace Config

/-- What a line does to the configuration: an entry is set, anything else is
skipped. -/
def setPair (cfg : Config) (p : Pair) : Config := { kv := cfg.kv.set p.key p.value }

theorem parseLine_print (cfg : Config) (l : Line) :
    cfg.parseLine l.print = l.pair?.toList.foldl setPair cfg := by
  cases l with
  | entry p before afterKey beforeValue afterValue comment =>
    have hkey : ∀ c ∈ before.text ++ p.key ++ afterKey.text, c ≠ ':' :=
      p.padded_key_ne before afterKey (.inr rfl)
    have hline : ∀ c ∈ (before.text ++ p.key ++ afterKey.text) ++
        ':' :: (beforeValue.text ++ p.value ++ afterValue.text), c ≠ '#' := by
      intro c hc
      rcases List.mem_append.mp hc with hc | hc
      · exact p.padded_key_ne before afterKey (.inl rfl) c hc
      · rcases List.mem_cons.mp hc with rfl | hc
        · decide
        · exact p.padded_value_ne beforeValue afterValue c hc
    have hcut : (Line.entry p before afterKey beforeValue afterValue comment).print.takeWhile
        (· ≠ '#') = (before.text ++ p.key ++ afterKey.text) ++
          ':' :: (beforeValue.text ++ p.value ++ afterValue.text) :=
      takeWhile_comment hline comment
    rw [parseLine, hcut]
    dsimp only
    rw [idxOf?_colon hkey]
    dsimp only
    rw [List.take_left, trim_pad p.key_trimmed, if_neg p.key_ne, List.drop_append,
      List.drop_of_length_le (Nat.le_succ _), List.nil_append, Nat.add_sub_cancel_left,
      List.drop_succ_cons, List.drop_zero, trim_pad p.value_trimmed]
    rfl
  | other text one_line no_colon =>
    have hnone : (text.takeWhile (· ≠ '#')).idxOf? ':' = none := List.idxOf?_eq_none_iff.mpr no_colon
    rw [parseLine, Line.print]
    dsimp only
    rw [hnone]
    rfl

end Config

/-! ## All lines -/

theorem Line.one_line (l : Line) : '\n' ∉ l.print := by
  cases l with
  | other text one_line no_colon => exact one_line
  | entry p before afterKey beforeValue afterValue comment =>
    have hblank : ∀ b : Blank, '\n' ∉ b.text := fun b hb => (b.ok _ hb).2 rfl
    have hkey : '\n' ∉ p.key := fun h => (p.key_ok _ h).2.2 rfl
    have hvalue : '\n' ∉ p.value := fun h => (p.value_ok _ h).2 rfl
    have hcomment : '\n' ∉ comment.print := by
      unfold Comment.print
      cases htext : comment.text with
      | none => exact List.not_mem_nil
      | some t => simpa using comment.ok t htext
    simp [Line.print, hblank, hkey, hvalue, hcomment]

theorem lines_append {s : Text} (h : '\n' ∉ s) (rest : Text) :
    lines (s ++ '\n' :: rest) = s :: lines rest := by
  induction s with
  | nil => rfl
  | cons c s ih =>
    have hc := List.ne_of_not_mem_cons h
    have hs := List.not_mem_of_not_mem_cons h
    rw [List.cons_append, lines, if_neg (Ne.symm hc), ih hs]

theorem lines_last {s : Text} (h : '\n' ∉ s) : lines s = if s = [] then [] else [s] := by
  induction s with
  | nil => rfl
  | cons c s ih =>
    have hc := List.ne_of_not_mem_cons h
    have hs := List.not_mem_of_not_mem_cons h
    rw [lines, if_neg (Ne.symm hc), ih hs, if_neg (List.cons_ne_nil c s)]
    cases s <;> rfl

namespace Config

/-- A last line that is empty is not read, and would set nothing. -/
theorem foldl_lines_last {s : Text} (h : '\n' ∉ s) (cfg : Config) :
    (lines s).foldl parseLine cfg = cfg.parseLine s := by
  rw [lines_last h]
  cases s with
  | nil => rfl
  | cons c s => rfl

theorem foldl_lines_print (final : Bool) (ls : List Line) (cfg : Config) :
    (lines (printLines final ls)).foldl parseLine cfg = (pairs ls).foldl setPair cfg := by
  induction ls generalizing cfg with
  | nil => cases final <;> rfl
  | cons l ls ih =>
    have hpairs : (pairs (l :: ls)).foldl setPair cfg =
        (pairs ls).foldl setPair (cfg.parseLine l.print) := by
      rw [parseLine_print, ← List.foldl_append]
      congr 1
      unfold pairs
      cases hl : l.pair? with
      | none => rw [List.filterMap_cons_none hl]; rfl
      | some p => rw [List.filterMap_cons_some hl]; rfl
    rw [hpairs]
    cases ls with
    | nil =>
      cases final with
      | true =>
        rw [printLines, if_pos rfl, lines_append l.one_line]
        rfl
      | false =>
        rw [printLines, if_neg Bool.false_ne_true, List.append_nil, foldl_lines_last l.one_line]
        rfl
    | cons l' ls =>
      rw [printLines, lines_append l.one_line, List.foldl_cons]
      exact ih _

/-- The map that a list of entries leaves. -/
theorem foldl_setPair_kv (ps : List Pair) (cfg : Config) :
    (ps.foldl setPair cfg).kv = ps.foldl (fun m p => m.set p.key p.value) cfg.kv := by
  induction ps generalizing cfg with
  | nil => rfl
  | cons p ps ih => exact ih _

theorem fromString_kv (ls : List Line) (final : Bool) (key : Text) :
    (fromString (printLines final ls)).kv.find? key =
      ((pairs ls).filter fun p => p.key = key).getLast?.map Pair.value := by
  have hempty : ({} : Config).kv.find? key = none := rfl
  rw [fromString, foldl_lines_print, foldl_setPair_kv, OrdMap.find?_foldl_set, hempty,
    Option.or_none]

theorem mem_keys {cfg : Config} {key : Text} : key ∈ cfg.keys ↔ (cfg.kv.find? key).isSome := by
  rw [keys, Option.isSome_iff_exists]
  constructor
  · intro h
    obtain ⟨e, he, rfl⟩ := List.mem_map.mp h
    exact ⟨e.2, OrdMap.mem_entries_iff.mp he⟩
  · rintro ⟨value, h⟩
    exact List.mem_map_of_mem (f := Prod.fst) (OrdMap.mem_entries_iff.mpr h)

theorem keys_sorted (cfg : Config) : cfg.keys.Pairwise (· < ·) := List.pairwise_map.mpr cfg.kv.sorted

/-- **Reading is the inverse of writing.** However the entries are spaced, commented
and mixed with other lines, with or without a final newline: the keys read are those
written, in order and once each, and each has the value of its last entry. -/
theorem fromString_print (ls : List Line) (final : Bool) :
    let cfg := fromString (printLines final ls)
    cfg.keys.Pairwise (· < ·) ∧ (∀ key, key ∈ cfg.keys ↔ ∃ p ∈ pairs ls, p.key = key) ∧
      ∀ before p after, pairs ls = before ++ p :: after → (∀ q ∈ after, q.key ≠ p.key) →
        cfg.getStr p.key = p.value := by
  refine ⟨keys_sorted _, fun key => ?_, fun before p after hsplit hlast => ?_⟩
  · rw [mem_keys, fromString_kv, Option.isSome_map, List.getLast?_isSome]
    simp
  · have hafter : after.filter (fun q => q.key = p.key) = [] :=
      List.filter_eq_nil_iff.mpr fun q hq => by simpa using hlast q hq
    have hself : (p :: after).filter (fun q => q.key = p.key) = [p] := by
      rw [List.filter_cons_of_pos (by simp), hafter]
    rw [getStr, fromString_kv, hsplit, List.filter_append, hself, List.getLast?_concat]
    rfl

end Config

end Lloms
