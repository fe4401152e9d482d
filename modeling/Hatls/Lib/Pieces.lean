import Mathlib.Data.List.Basic

/-!
# Streams that arrive in pieces

What is sent on a connection arrives in order, in pieces that nobody chooses.  A receiver that asks
for `n` values gets at most `n` of the piece that has come, and nothing once the other end has
closed.  Two loops are written over that: one that reads a number of values, and one that reads up
to a mark.  What they return, and what they leave, depends on the values only.  Where what is sent
matters as well, a connection is a pipe.

## Main definitions

* `Incoming`, `Incoming.recv` — what arrives, and one call of the receiver.
* `Incoming.recvExact`, `Incoming.recvExact_of_le`, `Incoming.recvExact_of_lt`.
* `Incoming.recvUntil`, `Incoming.recvUntil_of_mark`, `Incoming.recvUntil_of_not_mem`.
* `Pipe`, `Pipe.written` — what has been received, and what is on its way.
-/

universe u

/-- What arrives on a connection before the other end closes it.  A receiver waits for a piece, so
that none is empty. -/
structure Incoming (A : Type u) where
  pieces : List (List A)
  solid : ∀ p ∈ pieces, p ≠ []

namespace Incoming

variable {A : Type u} {s s' : Incoming A} {n : ℕ} {chunk : List A}

/-- All of it. -/
def values (s : Incoming A) : List A := s.pieces.flatten

/-- What is left of the pieces when `n` values of the first are taken. -/
def rest (n : ℕ) (p : List A) (ps : List (List A)) : List (List A) :=
  if p.length ≤ n then ps else p.drop n :: ps

theorem solid_rest {p : List A} {ps : List (List A)} (h : ∀ q ∈ p :: ps, q ≠ []) :
    ∀ q ∈ rest n p ps, q ≠ [] := by
  intro q hq
  rw [rest] at hq
  split_ifs at hq with hlength
  · exact h q (List.mem_cons_of_mem p hq)
  · rcases List.mem_cons.mp hq with rfl | hq
    · intro hnil
      exact hlength (List.drop_eq_nil_iff.mp hnil)
    · exact h q (List.mem_cons_of_mem p hq)

/-- One call of the receiver, which asks for `n` values at most; `none` when the other end has
closed. -/
def recv (n : ℕ) : Incoming A → Option (List A × Incoming A)
  | ⟨[], _⟩ => none
  | ⟨p :: ps, h⟩ => some (p.take n, ⟨rest n p ps, solid_rest h⟩)

theorem recv_eq_none : s.recv n = none ↔ s.values = [] := by
  obtain ⟨pieces, solid⟩ := s
  cases pieces with
  | nil => simp [recv, values]
  | cons p ps =>
      have hp := solid p List.mem_cons_self
      simp [recv, values, hp]

theorem rest_flatten (p : List A) (ps : List (List A)) :
    p.take n ++ (rest n p ps).flatten = (p :: ps).flatten := by
  rw [rest, List.flatten_cons]
  split_ifs with hlength
  · rw [List.take_of_length_le hlength]
  · rw [List.flatten_cons, ← List.append_assoc, List.take_append_drop]

/-- **What a call returns comes before what it leaves.** -/
theorem recv_values (h : s.recv n = some (chunk, s')) : s.values = chunk ++ s'.values := by
  obtain ⟨pieces, solid⟩ := s
  cases pieces with
  | nil => cases h
  | cons p ps =>
      obtain ⟨rfl, rfl⟩ := Prod.mk.inj (Option.some.inj h)
      exact (rest_flatten p ps).symm

/-- It is something, and no more than was asked for. -/
theorem recv_length (hn : 0 < n) (h : s.recv n = some (chunk, s')) :
    0 < chunk.length ∧ chunk.length ≤ n := by
  obtain ⟨pieces, solid⟩ := s
  cases pieces with
  | nil => cases h
  | cons p ps =>
      obtain ⟨rfl, rfl⟩ := Prod.mk.inj (Option.some.inj h)
      have hp := List.length_pos_iff.mpr (solid p List.mem_cons_self)
      rw [List.length_take]
      omega

/-- A call for one value. -/
theorem recv_one (h : s.recv 1 = some (chunk, s')) :
    ∃ a, chunk = [a] ∧ s.values = a :: s'.values := by
  obtain ⟨hpos, hshort⟩ := recv_length (by omega) h
  obtain ⟨a, rfl⟩ := List.length_eq_one_iff.mp (by omega : chunk.length = 1)
  exact ⟨a, rfl, recv_values h⟩

/-! ## A number of values -/

/-- `while len(b) < n: b += recv(n - len(b))`. -/
def recvExact (n : ℕ) (s : Incoming A) : Option (List A × Incoming A) := loop [] s
where
  loop (b : List A) (s : Incoming A) : Option (List A × Incoming A) :=
    if _hlt : b.length < n then
      match _hrecv : s.recv (n - b.length) with
      | none => none
      | some (chunk, s') => loop (b ++ chunk) s'
    else some (b, s)
  termination_by n - b.length
  decreasing_by
    have hchunk := recv_length (by omega) _hrecv
    rw [List.length_append]
    omega

/-- Where enough comes, the loop returns when it has it. -/
theorem recvExact_loop_of_le (b : List A) (s : Incoming A) (hb : b.length ≤ n)
    (hle : n ≤ b.length + s.values.length) :
    ∃ s', recvExact.loop n b s = some (b ++ s.values.take (n - b.length), s') ∧
      s'.values = s.values.drop (n - b.length) := by
  induction hmissing : n - b.length using Nat.strongRecOn generalizing b s with
  | ind missing ih =>
      rw [recvExact.loop]
      by_cases hlt : b.length < n
      · rw [dif_pos hlt]
        split
        next hnone =>
          have hempty := recv_eq_none.mp hnone
          rw [hempty, List.length_nil] at hle
          omega
        next chunk s₁ hrecv =>
          obtain ⟨hpos, hshort⟩ := recv_length (by omega) hrecv
          have hvalues := recv_values hrecv
          have hlength : (b ++ chunk).length = b.length + chunk.length := List.length_append
          rw [hvalues, List.length_append] at hle
          obtain ⟨s', hloop, hrest⟩ := ih (n - (b ++ chunk).length) (by omega) (b ++ chunk) s₁
            (by omega) (by omega) rfl
          refine ⟨s', ?_, ?_⟩
          · rw [hloop, hvalues, ← hmissing, List.take_append, List.take_of_length_le hshort,
              List.append_assoc, hlength, Nat.sub_add_eq]
          · rw [hrest, hvalues, ← hmissing, List.drop_append, List.drop_eq_nil_of_le hshort,
              List.nil_append, hlength, Nat.sub_add_eq]
      · rw [dif_neg hlt]
        have hzero : missing = 0 := by omega
        refine ⟨s, ?_, ?_⟩
        · rw [hzero, List.take_zero, List.append_nil]
        · rw [hzero, List.drop_zero]

/-- **Where enough comes, it is what comes first.** -/
theorem recvExact_of_le (h : n ≤ s.values.length) :
    ∃ s', s.recvExact n = some (s.values.take n, s') ∧ s'.values = s.values.drop n :=
  recvExact_loop_of_le [] s (Nat.zero_le n) (by simpa using h)

/-- Where the other end closes too early, there is nothing. -/
theorem recvExact_loop_of_lt (b : List A) (s : Incoming A) (h : b.length + s.values.length < n) :
    recvExact.loop n b s = none := by
  induction hmissing : n - b.length using Nat.strongRecOn generalizing b s with
  | ind missing ih =>
      rw [recvExact.loop, dif_pos (by omega)]
      split
      next => rfl
      next chunk s₁ hrecv =>
        obtain ⟨hpos, hshort⟩ := recv_length (by omega) hrecv
        have hvalues := congrArg List.length (recv_values hrecv)
        have hlength : (b ++ chunk).length = b.length + chunk.length := List.length_append
        rw [List.length_append] at hvalues
        exact ih (n - (b ++ chunk).length) (by omega) (b ++ chunk) s₁ (by omega) rfl

theorem recvExact_of_lt (h : s.values.length < n) : s.recvExact n = none :=
  recvExact_loop_of_lt [] s (by simpa using h)

/-! ## Up to a mark -/

section Until

variable [DecidableEq A] {mark : A}

/-- `while not b.endswith(mark): b += recv(1)`. -/
def recvUntil (mark : A) (s : Incoming A) : Option (List A × Incoming A) := loop [] s
where
  loop (b : List A) (s : Incoming A) : Option (List A × Incoming A) :=
    if b.getLast? = some mark then some (b, s)
    else
      match _hrecv : s.recv 1 with
      | none => none
      | some (chunk, s') => loop (b ++ chunk) s'
  termination_by s.values.length
  decreasing_by
    have hvalues := congrArg List.length (recv_values _hrecv)
    have hchunk := recv_length (by omega) _hrecv
    rw [List.length_append] at hvalues
    omega

/-- The loop goes on to the mark. -/
theorem recvUntil_loop_of_mark (b line rest : List A) (s : Incoming A)
    (hb : b.getLast? ≠ some mark) (hline : mark ∉ line) (h : s.values = line ++ mark :: rest) :
    ∃ s', recvUntil.loop mark b s = some (b ++ line ++ [mark], s') ∧ s'.values = rest := by
  induction line generalizing b s with
  | nil =>
      rw [recvUntil.loop, if_neg hb]
      split
      next hnone =>
        rw [recv_eq_none.mp hnone] at h
        cases h
      next chunk s₁ hrecv =>
        obtain ⟨a, rfl, hvalues⟩ := recv_one hrecv
        rw [hvalues] at h
        obtain ⟨rfl, hrest⟩ := List.cons.inj h
        refine ⟨s₁, ?_, hrest⟩
        rw [recvUntil.loop, if_pos (by simp), List.append_nil]
  | cons x line ih =>
      rw [recvUntil.loop, if_neg hb]
      split
      next hnone =>
        rw [recv_eq_none.mp hnone] at h
        cases h
      next chunk s₁ hrecv =>
        obtain ⟨a, rfl, hvalues⟩ := recv_one hrecv
        rw [hvalues] at h
        obtain ⟨rfl, hrest⟩ := List.cons.inj h
        obtain ⟨hx, hline⟩ := not_or.mp (fun hmem => hline (List.mem_cons.mpr hmem))
        obtain ⟨s', hloop, hleft⟩ := ih (b ++ [a]) s₁ (by simpa using Ne.symm hx) hline hrest
        exact ⟨s', by simpa using hloop, hleft⟩

/-- **The first line is read, with its mark**, and what follows it is left. -/
theorem recvUntil_of_mark {line rest : List A} (hline : mark ∉ line)
    (h : s.values = line ++ mark :: rest) :
    ∃ s', s.recvUntil mark = some (line ++ [mark], s') ∧ s'.values = rest :=
  recvUntil_loop_of_mark [] line rest s (by simp) hline h

theorem recvUntil_loop_of_not_mem (b : List A) (s : Incoming A) (hb : b.getLast? ≠ some mark)
    (h : mark ∉ s.values) : recvUntil.loop mark b s = none := by
  induction hleft : s.values.length using Nat.strongRecOn generalizing b s with
  | ind left ih =>
      rw [recvUntil.loop, if_neg hb]
      split
      next => rfl
      next chunk s₁ hrecv =>
        obtain ⟨a, rfl, hvalues⟩ := recv_one hrecv
        rw [hvalues, List.mem_cons, not_or] at h
        rw [hvalues, List.length_cons] at hleft
        exact ih s₁.values.length (by omega) (b ++ [a]) s₁ (by simpa using Ne.symm h.1) h.2 rfl

/-- Without a mark there is none. -/
theorem recvUntil_of_not_mem (h : mark ∉ s.values) : s.recvUntil mark = none :=
  recvUntil_loop_of_not_mem [] s (by simp) h

end Until

end Incoming

/-! ## Pipes -/

/-- One direction of a connection: what has been received, and what is on its way. -/
structure Pipe (A : Type u) where
  taken : List A
  inFlight : List A

namespace Pipe

variable {A : Type u}

/-- All that was ever sent. -/
def written (p : Pipe A) : List A := p.taken ++ p.inFlight

def write (p : Pipe A) (data : List A) : Pipe A := { p with inFlight := p.inFlight ++ data }

/-- `recv` returns some of what is on its way. -/
def read (p : Pipe A) (n : ℕ) : List A × Pipe A :=
  (p.inFlight.take n, ⟨p.taken ++ p.inFlight.take n, p.inFlight.drop n⟩)

@[simp] theorem taken_write (p : Pipe A) (data : List A) : (p.write data).taken = p.taken := rfl

@[simp] theorem written_write (p : Pipe A) (data : List A) :
    (p.write data).written = p.written ++ data := by
  rw [written, written, write, List.append_assoc]

@[simp] theorem taken_read (p : Pipe A) (n : ℕ) : (p.read n).2.taken = p.taken ++ (p.read n).1 := rfl

@[simp] theorem written_read (p : Pipe A) (n : ℕ) : (p.read n).2.written = p.written := by
  rw [written, written, read, List.append_assoc, List.take_append_drop]

theorem taken_prefix (p : Pipe A) : p.taken <+: p.written := List.prefix_append _ _

end Pipe
