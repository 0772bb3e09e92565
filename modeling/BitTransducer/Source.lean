/-! # Sources

A source delivers bytes as they arrive: each read takes the next arrival, or as much of it as
there is room for, and no more than `chunk` bytes at a time. A read can also be interrupted, fail,
or bring nothing; when nothing arrives any more, reads bring nothing.

`Source.fill` reads until its room is used up, asking again after an interruption and stopping at
a read that brings nothing.

Main statements: `length_le_of_read` (a read stays within its room), `arrivals_read_le` and
`arrivals_read_lt` (no read adds to the arrivals, and an interruption uses one up). -/

namespace BitTransducer

/-- What comes from a source next. -/
inductive Arrival
  | data (bytes : List UInt8)
  /-- The read is to be repeated. -/
  | interrupted
  /-- The read brings nothing, though more may follow. -/
  | pause
  | failure (text : String)
deriving DecidableEq

/-- An origin of bytes: what is to arrive, the most bytes that one read brings, and how many reads
and bytes there have been. -/
structure Source where
  arrivals : List Arrival
  chunk : Option Nat
  reads : Nat
  delivered : Nat

/-- What a read brings. -/
inductive Reading
  | bytes (bytes : List UInt8)
  | interrupted
  | failure (text : String)
deriving DecidableEq

namespace Arrival

/-- The bytes that an arrival brings. -/
def bytes : Arrival → List UInt8
  | data bytes => bytes
  | _ => []

end Arrival

namespace Source

/-- A source at which `arrivals` come in, in reads of no more than `chunk` bytes. -/
def scheduled (arrivals : List Arrival) (chunk : Option Nat) : Source :=
  { arrivals, chunk, reads := 0, delivered := 0 }

/-- A source that delivers `bytes`, as many at a time as there is room for. -/
def ofBytes (bytes : List UInt8) : Source := scheduled [.data bytes] none

/-- The bytes still to come. -/
def pending (s : Source) : List UInt8 := s.arrivals.flatMap Arrival.bytes

/-- The next arrival that is not empty data, and the arrivals after it. -/
def next? : List Arrival → Option (Arrival × List Arrival)
  | [] => none
  | .data [] :: arrivals => next? arrivals
  | arrival :: arrivals => some (arrival, arrivals)

/-- What a read of `limit` bytes at most brings, and the arrivals that are left. -/
def take (arrivals : List Arrival) (limit : Nat) : Reading × List Arrival :=
  match next? arrivals with
  | none => (.bytes [], [])
  | some (.data bytes, rest) => (.bytes (bytes.take limit), .data (bytes.drop limit) :: rest)
  | some (.interrupted, rest) => (.interrupted, rest)
  | some (.pause, rest) => (.bytes [], rest)
  | some (.failure text, rest) => (.failure text, rest)

/-- The most bytes that a read into `room` bytes brings. -/
def limit (s : Source) (room : Nat) : Nat :=
  match s.chunk with
  | none => room
  | some chunk => min chunk room

/-- One read into `room` bytes. -/
def read (s : Source) (room : Nat) : Reading × Source :=
  let (reading, arrivals) := take s.arrivals (s.limit room)
  let delivered := match reading with
    | .bytes bytes => s.delivered + bytes.length
    | _ => s.delivered
  (reading, { arrivals, chunk := s.chunk, reads := s.reads + 1, delivered })

/-! ## Progress of reads -/

theorem length_lt_of_next? {arrivals rest : List Arrival} {arrival : Arrival}
    (h : next? arrivals = some (arrival, rest)) : rest.length < arrivals.length := by
  fun_induction next? arrivals with
  | case1 => simp at h
  | case2 arrivals ih => have := ih h; simp only [List.length_cons]; omega
  | case3 => simp_all

/-- A read of `limit` bytes at most brings no more. -/
theorem length_le_of_take {arrivals rest : List Arrival} {limit : Nat} {bytes : List UInt8}
    (h : take arrivals limit = (.bytes bytes, rest)) : bytes.length ≤ limit := by
  unfold take at h
  split at h <;> cases h
  · exact Nat.zero_le _
  · exact List.length_take_le ..
  · exact Nat.zero_le _

/-- A read does not add to the arrivals. -/
theorem length_take_le (arrivals : List Arrival) (limit : Nat) :
    (take arrivals limit).2.length ≤ arrivals.length := by
  unfold take
  split
  · exact Nat.zero_le _
  all_goals
    rename_i hn
    have := length_lt_of_next? hn
    simp only [List.length_cons]
    omega

/-- An interruption uses up an arrival. -/
theorem length_lt_of_take_interrupted {arrivals rest : List Arrival} {limit : Nat}
    (h : take arrivals limit = (.interrupted, rest)) : rest.length < arrivals.length := by
  unfold take at h
  split at h <;> cases h
  rename_i hn
  exact length_lt_of_next? hn

theorem limit_le (s : Source) (room : Nat) : s.limit room ≤ room := by
  unfold limit
  split
  · exact Nat.le_refl _
  · exact Nat.min_le_right ..

/-- A read brings no more bytes than there is room for. -/
theorem length_le_of_read {s t : Source} {room : Nat} {bytes : List UInt8}
    (h : s.read room = (.bytes bytes, t)) : bytes.length ≤ room := by
  have hb : take s.arrivals (s.limit room) = (.bytes bytes, _) :=
    Prod.ext (Prod.mk.inj h).1 rfl
  exact Nat.le_trans (length_le_of_take hb) (s.limit_le room)

/-- No read adds to the arrivals. -/
theorem arrivals_read_le {s t : Source} {room : Nat} {reading : Reading}
    (h : s.read room = (reading, t)) : t.arrivals.length ≤ s.arrivals.length := by
  obtain ⟨-, ht⟩ := Prod.mk.inj h
  subst ht
  exact length_take_le ..

/-- An interruption uses up an arrival. -/
theorem arrivals_read_lt {s t : Source} {room : Nat}
    (h : s.read room = (.interrupted, t)) : t.arrivals.length < s.arrivals.length := by
  obtain ⟨hr, ht⟩ := Prod.mk.inj h
  subst ht
  have hi : take s.arrivals (s.limit room) = (.interrupted, _) := Prod.ext hr rfl
  exact length_lt_of_take_interrupted hi

/-! ## Reading on -/

/-- Reads until `room` is used up or a read brings nothing; the bytes read. Fails with the text of
a read that fails, and then the bytes are lost. -/
def fill (room : Nat) (s : Source) : EStateM.Result String Source (List UInt8) :=
  if room = 0 then .ok [] s
  else
    match _h : s.read room with
    | (.bytes [], s) => .ok [] s
    | (.bytes (byte :: bytes), s) =>
      match fill (room - (bytes.length + 1)) s with
      | .ok more s => .ok (byte :: bytes ++ more) s
      | .error text s => .error text s
    | (.interrupted, s) => fill room s
    | (.failure text, s) => .error text s
termination_by room + s.arrivals.length
decreasing_by
  · have := length_le_of_read _h; have := arrivals_read_le _h; simp at *; omega
  · have := arrivals_read_lt _h; omega

end Source
end BitTransducer
