import BengProxy.Base.Text

/-!
# Machines that read lines

A machine handles one line after the other, and stops at one of them. A line that is not complete
stays in the buffer, and is presented again with what follows. It does not matter in which pieces
the input arrives.
-/

namespace BengProxy.Base.Lines

open Base.Text List

/-- Lines, each with its line feed. -/
def join (lines : List Text) : Text := lines.flatMap (· ++ [0x0a])

@[simp] theorem join_cons (line : Text) (lines : List Text) :
    join (line :: lines) = line ++ 0x0a :: join lines := by
  rw [join, flatMap_cons, append_assoc]
  rfl

variable {σ ε : Type} (handle : σ → Text → Except ε σ) (more : σ → Bool)

/-- Handle the lines in the buffer until the machine stops: the new state, and what is left. -/
def feed (s : σ) (src : Text) : Except ε (σ × Text) :=
  match _h : cut 0x0a src with
  | none => .ok (s, src)
  | some (line, rest) =>
    match handle s line with
    | .error e => .error e
    | .ok s => if more s then feed s rest else .ok (s, rest)
termination_by src.length
decreasing_by
  have hle := length_of_cut _h
  omega

theorem feed_eq_of_cut_none {s : σ} {src : Text} (h : cut 0x0a src = none) :
    feed handle more s src = .ok (s, src) := by
  rw [feed]
  split
  · rfl
  next he =>
    rw [h] at he
    cases he

theorem feed_eq_of_cut {s : σ} {src line rest : Text} (h : cut 0x0a src = some (line, rest)) :
    feed handle more s src = match handle s line with
      | .error e => .error e
      | .ok s => if more s then feed handle more s rest else .ok (s, rest) := by
  rw [feed]
  split
  next he =>
    rw [h] at he
    cases he
  next line' rest' he =>
    rw [h] at he
    cases he
    rfl

/-- What happens with more input, after the machine has seen a part of it. -/
def resume (result : Except ε (σ × Text)) (data : Text) : Except ε (σ × Text) :=
  match result with
  | .error e => .error e
  | .ok (s, rest) => if more s then feed handle more s (rest ++ data) else .ok (s, rest ++ data)

/-- There is no more to cut if the string is continued before the separator. -/
theorem cut_append_of_some {a line rest : Text} (h : cut 0x0a a = some (line, rest)) (b : Text) :
    cut 0x0a (a ++ b) = some (line, rest ++ b) := by
  obtain ⟨rfl, hl⟩ := eq_of_cut h
  rw [append_assoc, cons_append, cut_append hl]

/-- It does not matter where the input is split. -/
theorem feed_append {s : σ} {a : Text} (hs : more s = true) (b : Text) :
    feed handle more s (a ++ b) = resume handle more (feed handle more s a) b := by
  cases hc : cut 0x0a a with
  | none =>
    rw [feed_eq_of_cut_none handle more hc]
    show _ = if more s then _ else _
    rw [if_pos hs]
  | some parts =>
    obtain ⟨line, rest⟩ := parts
    have hle := length_of_cut hc
    rw [feed_eq_of_cut handle more hc, feed_eq_of_cut handle more (cut_append_of_some hc b)]
    cases hh : handle s line with
    | error e => rfl
    | ok s' =>
      by_cases hm : more s' = true
      · simp only [if_pos hm]
        exact feed_append hm b
      · simp only [if_neg hm]
        rw [resume, if_neg hm]
termination_by a.length
decreasing_by omega

/-- The lines that have been handled. -/
inductive Handled (handle : σ → Text → Except ε σ) (more : σ → Bool) :
    σ → Text → σ → Text → Prop where
  | stop {s : σ} {src : Text} (h : more s = false ∨ 0x0a ∉ src) : Handled handle more s src s src
  | line {s s' s'' : σ} {line rest rest' : Text} (hmore : more s = true) (hline : 0x0a ∉ line)
      (h : handle s line = .ok s') (hrest : Handled handle more s' rest s'' rest') :
      Handled handle more s (line ++ 0x0a :: rest) s'' rest'

/-- The result comes from the lines that have been handled. -/
theorem handled_of_feed {s s' : σ} {src rest : Text} (hs : more s = true)
    (h : feed handle more s src = .ok (s', rest)) : Handled handle more s src s' rest := by
  cases hc : cut 0x0a src with
  | none =>
    rw [feed_eq_of_cut_none handle more hc] at h
    cases h
    exact .stop (.inr (not_mem_of_cut_eq_none hc))
  | some parts =>
    obtain ⟨line, after⟩ := parts
    have hle := length_of_cut hc
    obtain ⟨hsr, hl⟩ := eq_of_cut hc
    rw [feed_eq_of_cut handle more hc] at h
    rw [hsr]
    cases hh : handle s line with
    | error e =>
      rw [hh] at h
      cases h
    | ok s1 =>
      rw [hh] at h
      by_cases hm : more s1 = true
      · simp only [if_pos hm] at h
        exact .line hs hl hh (handled_of_feed hm h)
      · simp only [if_neg hm] at h
        cases h
        exact .line hs hl hh (.stop (.inl (Bool.not_eq_true _ ▸ hm)))
termination_by src.length
decreasing_by omega

end BengProxy.Base.Lines
