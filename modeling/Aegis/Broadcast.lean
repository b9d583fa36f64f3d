import Aegis.GuardedRun
import Aegis.OrderedTable

/-!
# Broadcast channels

A channel that keeps its last values for any number of readers. A reader starts
at what is sent next; one that falls behind what is kept is told how much it
missed and goes on with the oldest value that is left. A feed is any such channel
with its readers.
-/

namespace Aegis
variable {α : Type}

inductive Received (α : Type) where
  | value (a : α)
  | lagged (missed : ℕ)
  | empty
deriving DecidableEq, Repr

/-- A channel and what its readers get; a position counts the values sent before it. -/
structure BroadcastChannel (α : Type) where
  Queue : Type
  channel : ℕ → Queue
  send : Queue → α → Queue
  subscribe : Queue → ℕ
  recv : Queue → ℕ → Received α × ℕ

/-- The channel after values were sent. -/
def BroadcastChannel.after (c : BroadcastChannel α) (capacity : ℕ) (history : List α) : c.Queue :=
  history.foldl c.send (c.channel capacity)

/-- A reader starts behind what was sent; one that is further behind than the capacity is told how
much it missed and moved to the oldest value left, and any other gets its next value. A capacity
that is no power of two is rounded up. -/
structure BroadcastChannel.Documented (c : BroadcastChannel α) : Prop where
  subscribe : ∀ {capacity : ℕ}, capacity.isPowerOfTwo → ∀ history : List α,
    c.subscribe (c.after capacity history) = history.length
  lagged : ∀ {capacity : ℕ}, capacity.isPowerOfTwo → ∀ (history : List α) (next : ℕ),
    next + capacity < history.length → c.recv (c.after capacity history) next =
      (.lagged (history.length - capacity - next), history.length - capacity)
  value : ∀ {capacity : ℕ}, capacity.isPowerOfTwo → ∀ (history : List α) (next : ℕ),
    history.length ≤ next + capacity → c.recv (c.after capacity history) next =
      match history[next]? with
      | some a => (.value a, next + 1)
      | none => (.empty, next)

theorem BroadcastChannel.after_snoc (c : BroadcastChannel α) (capacity : ℕ) (history : List α)
    (a : α) : c.after capacity (history ++ [a]) = c.send (c.after capacity history) a := by
  rw [after, List.foldl_append, ← after]
  rfl

/-- The last `capacity` values; `sent` counts all of them. -/
structure Broadcast (α : Type) where
  capacity : ℕ
  sent : ℕ
  kept : List α
  fits : kept.length = min sent capacity

namespace Broadcast

def channel (capacity : ℕ) : Broadcast α := ⟨capacity, 0, [], by simp⟩

def send (b : Broadcast α) (a : α) : Broadcast α where
  capacity := b.capacity
  sent := b.sent + 1
  kept := (b.kept ++ [a]).drop (b.kept.length + 1 - b.capacity)
  fits := by
    have := b.fits
    rw [List.length_drop, List.length_append, List.length_singleton]
    omega

/-- The number of the oldest value that is kept. -/
def oldest (b : Broadcast α) : ℕ := b.sent - b.kept.length

/-- What the reader of value number `next` gets, and the number it reads next. -/
def recv (b : Broadcast α) (next : ℕ) : Received α × ℕ :=
  if next < b.oldest then (.lagged (b.oldest - next), b.oldest)
  else match b.kept[next - b.oldest]? with
    | some a => (.value a, next + 1)
    | none => (.empty, next)

/-- The channel after the values `history`. -/
structure Holds (b : Broadcast α) (history : List α) : Prop where
  sent : b.sent = history.length
  kept : b.kept = history.drop (history.length - b.capacity)

theorem channel_holds (capacity : ℕ) : (channel capacity : Broadcast α).Holds [] :=
  ⟨rfl, by simp [channel]⟩

theorem Holds.send {b : Broadcast α} {history : List α} (h : b.Holds history) (a : α) :
    (b.send a).Holds (history ++ [a]) where
  sent := by simp [Broadcast.send, h.sent]
  kept := by
    have hlen := b.fits
    rw [h.sent] at hlen
    have hdrop : history.length - b.capacity ≤ history.length := Nat.sub_le _ _
    have happend : history.drop (history.length - b.capacity) ++ [a] =
        (history ++ [a]).drop (history.length - b.capacity) :=
      (List.drop_append_of_le_length hdrop).symm
    simp only [Broadcast.send, hlen]
    rw [h.kept, happend, List.drop_drop, List.length_append, List.length_singleton]
    congr 1
    omega

theorem Holds.oldest {b : Broadcast α} {history : List α} (h : b.Holds history) :
    b.oldest = history.length - b.capacity := by
  rw [Broadcast.oldest, b.fits, h.sent]
  omega

/-- A reader that is not behind what is kept gets the value with its number, if it was sent. -/
theorem Holds.recv {b : Broadcast α} {history : List α} (h : b.Holds history) {next : ℕ}
    (hnext : b.oldest ≤ next) :
    b.recv next = match history[next]? with
      | some a => (.value a, next + 1)
      | none => (.empty, next) := by
  have hget : b.kept[next - b.oldest]? = history[next]? := by
    have hold := h.oldest
    rw [h.kept, List.getElem?_drop]
    congr 1
    omega
  rw [Broadcast.recv, if_neg (not_lt.mpr hnext), hget]

theorem Holds.recv_lagged {b : Broadcast α} {history : List α} (h : b.Holds history) (next : ℕ)
    (hlag : next + b.capacity < history.length) :
    b.recv next =
      (.lagged (history.length - b.capacity - next), history.length - b.capacity) := by
  rw [Broadcast.recv, h.oldest, if_pos (by omega)]

/-- Channels that are a list of what they keep. -/
def listed : BroadcastChannel α where
  Queue := Broadcast α
  channel := channel
  send := send
  subscribe := sent
  recv := recv

theorem after_holds (capacity : ℕ) (history : List α) :
    Holds (listed.after capacity history) history ∧
      Broadcast.capacity (listed.after capacity history) = capacity := by
  induction history using List.reverseRecOn with
  | nil => exact ⟨channel_holds capacity, rfl⟩
  | append_singleton history a ih =>
      rw [BroadcastChannel.after_snoc]
      exact ⟨ih.1.send a, ih.2⟩

theorem listed_documented : (listed : BroadcastChannel α).Documented where
  subscribe _ history := (after_holds _ history).1.sent
  lagged := by
    intro capacity _ history next hlag
    obtain ⟨hholds, hcapacity⟩ := after_holds capacity history
    have hrecv := hholds.recv_lagged next (by rwa [hcapacity])
    rwa [hcapacity] at hrecv
  value := by
    intro capacity _ history next hnext
    obtain ⟨hholds, hcapacity⟩ := after_holds capacity history
    have hold := hholds.oldest
    rw [hcapacity] at hold
    exact hholds.recv (by omega)

end Broadcast

/-- A reader, with what it got so far and how much it was told it missed. -/
structure Reader (α : Type) where
  joined : ℕ
  next : ℕ
  got : List α
  missed : ℕ
deriving DecidableEq, Repr

namespace Reader

def poll (c : BroadcastChannel α) (b : c.Queue) (r : Reader α) : Reader α :=
  match c.recv b r.next with
  | (.value a, next) => { r with next := next, got := r.got ++ [a] }
  | (.lagged missed, next) => { r with next := next, missed := r.missed + missed }
  | (.empty, next) => { r with next := next }

/-- What was sent while the reader was there and it has gone past. -/
def passed (history : List α) (r : Reader α) : List α := (history.take r.next).drop r.joined

/-- A reader gets what it passes in order, less what it is told it missed. -/
structure Follows (history : List α) (r : Reader α) : Prop where
  joined : r.joined ≤ r.next
  next : r.next ≤ history.length
  got : r.got.Sublist (r.passed history)
  missed : r.got.length + r.missed = r.next - r.joined

variable {history : List α} {r : Reader α}

theorem Follows.send (h : Follows history r) (a : α) : Follows (history ++ [a]) r where
  joined := h.joined
  next := h.next.trans (by simp)
  got := by
    have hpassed : r.passed (history ++ [a]) = r.passed history := by
      rw [passed, passed, List.take_append_of_le_length h.next]
    rw [hpassed]
    exact h.got
  missed := h.missed

theorem Follows.got_eq (h : Follows history r) (hmissed : r.missed = 0) :
    r.got = r.passed history := by
  apply h.got.eq_of_length
  have hcount := h.missed
  have hnext := h.next
  rw [passed, List.length_drop, List.length_take]
  omega

theorem passed_snoc (h : Follows history r) {a : α} (ha : history[r.next]? = some a) :
    (history.take (r.next + 1)).drop r.joined = r.passed history ++ [a] := by
  have hlen : r.joined ≤ (history.take r.next).length := by
    rw [List.length_take]
    exact le_min h.joined (h.joined.trans h.next)
  rw [List.take_add_one, ha, Option.toList_some, List.drop_append_of_le_length hlen, passed]

section Polls
variable {c : BroadcastChannel α} (hc : c.Documented) {capacity : ℕ}
  (hcapacity : capacity.isPowerOfTwo)
include hc hcapacity

theorem poll_lagged (hlag : r.next + capacity < history.length) :
    r.poll c (c.after capacity history) =
      { r with
        next := history.length - capacity
        missed := r.missed + (history.length - capacity - r.next) } := by
  rw [poll, hc.lagged hcapacity history r.next hlag]

theorem Follows.poll (h : Follows history r) :
    Follows history (r.poll c (c.after capacity history)) := by
  have hjoined := h.joined
  have hcount := h.missed
  have hnext := h.next
  by_cases hlag : r.next + capacity < history.length
  · -- what the channel dropped is passed without being got
    have hlater :
        (r.passed history).Sublist ((history.take (history.length - capacity)).drop r.joined) :=
      (List.take_sublist_take_left (by omega)).drop _
    rw [poll_lagged hc hcapacity hlag]
    exact ⟨by simp only; omega, by simp only; omega, h.got.trans hlater, by simp only; omega⟩
  · rw [Reader.poll, hc.value hcapacity history r.next (not_lt.mp hlag)]
    cases ha : history[r.next]? with
    | none => exact h
    | some a =>
        have hlt := (List.getElem?_eq_some_iff.mp ha).1
        refine ⟨by simp only; omega, hlt, ?_, ?_⟩
        · rw [passed, passed_snoc h ha]
          exact h.got.append (List.Sublist.refl _)
        · simp only [List.length_append, List.length_singleton]
          omega

theorem iterate_poll (n : ℕ) (hold : history.length ≤ r.next + capacity)
    (hn : r.next + n ≤ history.length) :
    (Reader.poll c (c.after capacity history))^[n] r =
      { r with next := r.next + n, got := r.got ++ (history.drop r.next).take n } := by
  induction n generalizing r with
  | zero => simp
  | succ n ih =>
      have hlt : r.next < history.length := by omega
      have hpoll : r.poll c (c.after capacity history) =
          { r with next := r.next + 1, got := r.got ++ [history[r.next]] } := by
        rw [Reader.poll, hc.value hcapacity history r.next hold, List.getElem?_eq_getElem hlt]
      rw [Function.iterate_succ_apply, hpoll, ih (by simp only; omega) (by simp only; omega)]
      rw [List.drop_eq_getElem_cons hlt, List.take_succ_cons, List.append_assoc,
        List.singleton_append, Nat.add_assoc, Nat.add_comm 1 n]

/-- A reader catches up by as many polls as it is behind, and one more if it lags: it then has
all that the channel kept for it. -/
theorem Follows.catch_up (h : Follows history r) :
    ∃ n ≤ history.length - r.next + 1,
      ((Reader.poll c (c.after capacity history))^[n] r).next = history.length ∧
      ((Reader.poll c (c.after capacity history))^[n] r).got =
        r.got ++ history.drop (max r.next (history.length - capacity)) := by
  have hnext := h.next
  by_cases hlag : r.next + capacity < history.length
  · have holdest : r.next ≤ history.length - capacity := by omega
    refine ⟨capacity + 1, by omega, ?_⟩
    rw [Function.iterate_succ_apply, poll_lagged hc hcapacity hlag,
      iterate_poll hc hcapacity capacity (by simp only; omega) (by simp only; omega),
      max_eq_right holdest]
    refine ⟨by simp only; omega, ?_⟩
    rw [List.take_of_length_le (by simp only [List.length_drop]; omega)]
  · refine ⟨history.length - r.next, by omega, ?_⟩
    rw [iterate_poll hc hcapacity _ (not_lt.mp hlag) (by omega), max_eq_left (by omega)]
    refine ⟨by simp only; omega, ?_⟩
    rw [List.take_of_length_le (by simp)]

end Polls

end Reader

/-- A channel with its readers, and what was sent on it. -/
structure Feed (c : BroadcastChannel α) (capacity : ℕ) where
  channel : c.Queue
  history : List α
  readers : OrderedTable ℕ (Reader α)

inductive Feed.Act (α : Type) where
  | publish (a : α)
  | subscribe (id : ℕ)
  | poll (id : ℕ)
  | leave (id : ℕ)

namespace Feed
variable {c : BroadcastChannel α} {capacity : ℕ}

def start (c : BroadcastChannel α) (capacity : ℕ) : Feed c capacity :=
  ⟨c.channel capacity, [], .empty⟩

def publish (f : Feed c capacity) (a : α) : Feed c capacity :=
  { f with channel := c.send f.channel a, history := f.history ++ [a] }

def step (f : Feed c capacity) : Act α → Option (Feed c capacity)
  | .publish a => some (f.publish a)
  | .subscribe id =>
      let first := c.subscribe f.channel
      if (f.readers.get? id).isNone then
        some { f with readers := f.readers.insert id ⟨first, first, [], 0⟩ }
      else none
  | .poll id => (f.readers.get? id).map fun r =>
      { f with readers := f.readers.insert id (r.poll c f.channel) }
  | .leave id => some { f with readers := f.readers.erase id }

/-- The reader is not polled while it is further behind than the channel keeps. -/
def Prompt (id : ℕ) (f : Feed c capacity) : Act α → Prop
  | .poll id' => id' = id → ∀ r ∈ f.readers.get? id, f.history.length ≤ r.next + capacity
  | _ => True

instance (id : ℕ) (f : Feed c capacity) (a : Act α) : Decidable (Prompt id f a) :=
  match a with
  | .poll id' => inferInstanceAs
      (Decidable (id' = id → ∀ r ∈ f.readers.get? id, f.history.length ≤ r.next + capacity))
  | .publish _ => .isTrue trivial
  | .subscribe _ => .isTrue trivial
  | .leave _ => .isTrue trivial

structure Sound (f : Feed c capacity) : Prop where
  holds : f.channel = c.after capacity f.history
  follows : ∀ id r, f.readers.get? id = some r → r.Follows f.history

theorem start_sound : Sound (start c capacity) := ⟨rfl, fun _ _ h => nomatch h⟩

variable {f g : Feed c capacity}

theorem Sound.publish (h : Sound f) (a : α) : Sound (f.publish a) where
  holds := by rw [Feed.publish, BroadcastChannel.after_snoc, h.holds]
  follows := fun id r hr => (h.follows id r hr).send a

/-- What is left to show of a step that changes one reader. -/
theorem Sound.insert (h : Sound f) {id : ℕ} {r : Reader α} (hr : r.Follows f.history) :
    Sound ({ f with readers := f.readers.insert id r } : Feed c capacity) where
  holds := h.holds
  follows := by
    intro id' r' hr'
    simp only [OrderedTable.get?_insert] at hr'
    split_ifs at hr' with hid
    · rw [← Option.some.inj hr']
      exact hr
    · exact h.follows id' r' hr'

section Documented
variable (hc : c.Documented) (hcapacity : capacity.isPowerOfTwo)
include hc hcapacity

theorem step_sound {a : Act α} (h : Sound f) (hstep : f.step a = some g) : Sound g := by
  cases a with
  | publish a =>
      cases hstep
      exact h.publish a
  | subscribe id =>
      simp only [step] at hstep
      split_ifs at hstep
      cases hstep
      apply h.insert
      rw [h.holds, hc.subscribe hcapacity]
      exact ⟨le_rfl, le_rfl, List.nil_sublist _, (Nat.sub_self _).symm⟩
  | poll id =>
      obtain ⟨r, hr, rfl⟩ := Option.map_eq_some_iff.mp hstep
      apply h.insert
      rw [h.holds]
      exact (h.follows id r hr).poll hc hcapacity
  | leave id =>
      cases hstep
      exact ⟨h.holds, fun id' r hr => h.follows id' r (OrderedTable.get?_erase_some hr).2⟩

theorem step_missed (h : Sound f) {id : ℕ}
    (hmissed : ∀ r, f.readers.get? id = some r → r.missed = 0)
    {a : Act α} (ha : Prompt id f a) (hstep : f.step a = some g) :
    ∀ r, g.readers.get? id = some r → r.missed = 0 := by
  intro r' hr'
  cases a with
  | publish a =>
      cases hstep
      exact hmissed r' hr'
  | subscribe id' =>
      simp only [step] at hstep
      split_ifs at hstep
      cases hstep
      simp only [OrderedTable.get?_insert] at hr'
      split_ifs at hr'
      · rw [← Option.some.inj hr']
      · exact hmissed r' hr'
  | poll id' =>
      obtain ⟨r, hr, rfl⟩ := Option.map_eq_some_iff.mp hstep
      simp only [OrderedTable.get?_insert] at hr'
      split_ifs at hr' with hid
      · subst hid
        rw [← Option.some.inj hr', Reader.poll, h.holds,
          hc.value hcapacity f.history r.next (ha rfl r hr)]
        cases f.history[r.next]? with
        | none => exact hmissed r hr
        | some a => exact hmissed r hr
      · exact hmissed r' hr'
  | leave id' =>
      cases hstep
      exact hmissed r' (OrderedTable.get?_erase_some hr').2

end Documented

end Feed
end Aegis
