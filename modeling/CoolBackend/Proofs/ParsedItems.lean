import CoolBackend.Proofs.Items
import CoolBackend.Proofs.Runs

/-!
Whatever bytes an item is read from, its arrays are within the bounds of the reader, and none of its
texts is longer than those bytes. The reader keeps both for the items that it has completed and for
the containers that are still open, round after round.
-/
namespace CoolBackend.Cbor

theorem takeBytes_length {n : Nat} {done bytes content rest : Bytes}
    (run : takeBytes n done bytes = .ok (content,rest)) :
    content.length = done.length + n ∧ rest.length + n = bytes.length := by
  induction n generalizing done bytes with
  | zero =>
    cases run
    simp
  | succ n ih =>
    cases bytes with
    | nil => cases run
    | cons b bytes =>
      obtain ⟨taken,left⟩ := ih run
      simp only [List.length_cons] at taken ⊢
      omega

theorem readArgument_length {info : UInt8} {bytes rest : Bytes} {argument : Argument}
    (run : readArgument info bytes = .ok (argument,rest)) : rest.length ≤ bytes.length := by
  have wide {width : Nat} (run : (takeBytes width [] bytes >>= fun read =>
      pure (Argument.definite (ofBigEndian read.1),read.2)) = Except.ok (argument,rest)) :
      rest.length ≤ bytes.length := by
    obtain ⟨_,taken,run⟩ := except_bind_eq_ok.mp run
    cases run
    have := (takeBytes_length taken).2
    omega
  unfold readArgument at run
  repeat' split at run
  all_goals first
    | exact wide run
    | cases run; exact Nat.le_refl _
    | cases run

theorem readHead_length {bytes rest : Bytes} {head : Head}
    (run : readHead bytes = .ok (head,rest)) : rest.length ≤ bytes.length := by
  cases bytes with
  | nil => cases run
  | cons b bytes =>
    obtain ⟨⟨argument,left⟩,read,run⟩ := except_bind_eq_ok.mp run
    obtain ⟨head,-,run⟩ := except_bind_eq_ok.mp run
    cases run
    exact Nat.le_succ_of_le (readArgument_length read)

/-- What holds of an open container when `unread` bytes are left, all of which can still become part
of a text. -/
def Frame.Sized (unread : Nat) : Frame → Prop
  | .bytes _ | .tag _ => True
  | .text chunks => chunks.flatten.length + unread < 2 ^ 64
  | .array left count done => count = done.length ∧ left ≠ some 0 ∧
      done.length + left.getD 0 ≤ maxElements ∧ ∀ item ∈ done, item.Sized
  | .map _ _ done => ∀ item ∈ done, item.Sized

theorem Frame.Sized.mono {unread less : Nat} {frame : Frame} (sized : frame.Sized unread)
    (fewer : less ≤ unread) : frame.Sized less := by
  cases frame with
  | text chunks => exact Nat.lt_of_le_of_lt (Nat.add_le_add_left fewer _) sized
  | _ => exact sized

def Stack.Sized (unread : Nat) (stack : Stack) : Prop :=
  ∀ container ∈ stack, container.1.Sized unread

theorem Stack.Sized.mono {unread less : Nat} {stack : Stack} (sized : stack.Sized unread)
    (fewer : less ≤ unread) : stack.Sized less :=
  fun container member => (sized container member).mono fewer

def Progress.Sized (unread : Nat) : Progress → Prop
  | .more stack => stack.Sized unread
  | .done item => item.Sized

theorem pairUp_sized {items : List Item} {entries result : List (Item × Item)}
    (run : pairUp items entries = .ok result) (each : ∀ item ∈ items, item.Sized)
    (paired : (Item.map entries).Sized) : (Item.map result).Sized := by
  fun_induction pairUp items entries with
  | case1 =>
    cases run
    exact paired
  | case2 value key rest entries ih =>
    obtain ⟨valueSized,keySized,each⟩ := by simpa only [List.forall_mem_cons] using each
    cases paired with
    | map keys values =>
      exact ih run each (.map (List.forall_mem_cons.mpr ⟨keySized,keys⟩)
        (List.forall_mem_cons.mpr ⟨valueSized,values⟩))
  | case3 => cases run

section Steps

variable {unread : Nat} {stack : Stack} {progress : Progress}

/-- A complete item closes the containers that it completes, each of them within bounds. -/
theorem deliver_sized {item : Item} (run : deliver item stack = .ok progress) (own : item.Sized)
    (sized : stack.Sized unread) : progress.Sized unread := by
  induction stack generalizing item with
  | nil =>
    cases run
    exact own
  | cons container rest ih =>
    obtain ⟨frame,n⟩ := container
    obtain ⟨here,outer⟩ := List.forall_mem_cons.mp sized
    cases frame with
    | bytes chunks => cases run
    | text chunks => cases run
    | tag number => exact ih run (.tag number own) outer
    | array left count done =>
      obtain ⟨counted,some,few,each⟩ := here
      have members := List.forall_mem_cons.mpr ⟨own,each⟩
      rcases left with _ | _ | _ | k
      · rw [deliver] at run
        split at run
        next => cases run
        next bound =>
          cases run
          refine List.forall_mem_cons.mpr ⟨⟨congrArg (· + 1) counted,some,?_,members⟩,outer⟩
          rw [List.length_cons,Option.getD_none]
          omega
      · cases some rfl
      · rw [deliver] at run
        refine ih run (.array ?_ fun item member => members item (List.mem_reverse.mp member)) outer
        rw [List.length_reverse]
        exact few
      · cases run
        refine List.forall_mem_cons.mpr ⟨⟨congrArg (· + 1) counted,by simp,?_,members⟩,outer⟩
        rw [Option.getD_some] at few ⊢
        rw [List.length_cons]
        omega
    | map left count done =>
      have members : ∀ other ∈ item :: done, other.Sized := List.forall_mem_cons.mpr ⟨own,here⟩
      have closes (run : (pairUp (item :: done) [] >>= fun entries =>
          deliver (.map entries) rest) = .ok progress) : progress.Sized unread := by
        obtain ⟨entries,paired,run⟩ := except_bind_eq_ok.mp run
        exact ih run (pairUp_sized paired members (.map (by simp) (by simp))) outer
      rcases left with _ | _ | _ | k
      · rw [deliver] at run
        split at run
        next => cases run
        next =>
          cases run
          exact List.forall_mem_cons.mpr ⟨members,outer⟩
      · exact closes (by rwa [deliver] at run)
      · exact closes (by rwa [deliver] at run)
      · cases run
        exact List.forall_mem_cons.mpr ⟨members,outer⟩

theorem close_sized (run : close stack = .ok progress) (sized : stack.Sized unread) :
    progress.Sized unread := by
  unfold close at run
  split at run
  next chunks n rest =>
    exact deliver_sized run (.bytes _) (List.forall_mem_cons.mp sized).2
  next chunks n rest =>
    obtain ⟨here,outer⟩ := List.forall_mem_cons.mp sized
    refine deliver_sized run (.text ?_) outer
    have length : chunks.reverse.flatten.length = chunks.flatten.length := by simp
    rw [length]
    exact Nat.lt_of_le_of_lt (Nat.le_add_right _ _) here
  next count items n rest =>
    obtain ⟨⟨-,-,few,each⟩,outer⟩ := List.forall_mem_cons.mp sized
    refine deliver_sized run (.array ?_ fun item member => each item ?_) outer
    · simpa using few
    · exact List.mem_reverse.mp member
  next count items n rest =>
    obtain ⟨here,outer⟩ := List.forall_mem_cons.mp sized
    obtain ⟨entries,paired,run⟩ := except_bind_eq_ok.mp run
    exact deliver_sized run (pairUp_sized paired here (.map (by simp) (by simp))) outer
  next => cases run

theorem enter_sized {length : Argument} {empty : Item} {frame : Option Nat → Frame}
    (run : enter length empty frame stack = .ok progress) (hollow : empty.Sized)
    (opens : ∀ left, left ≠ some 0 → left.getD 0 ≤ maxElements → (frame left).Sized unread)
    (sized : stack.Sized unread) : progress.Sized unread := by
  unfold enter at run
  split at run
  next => cases run
  next =>
    split at run
    next => cases run
    next =>
      split at run
      next =>
        cases run
        exact List.forall_mem_cons.mpr ⟨opens none (by simp) (Nat.zero_le _),sized⟩
      next => exact deliver_sized run hollow sized
      next n =>
        split at run
        next => cases run
        next few =>
          cases run
          exact List.forall_mem_cons.mpr ⟨opens (some (n + 1)) (by simp) (by simpa using few),sized⟩

theorem enterTag_sized {number : Nat} (run : enterTag number stack = .ok progress)
    (sized : stack.Sized unread) : progress.Sized unread := by
  unfold enterTag at run
  split at run
  next =>
    split at run
    next => cases run
    next =>
      cases run
      exact List.forall_mem_cons.mpr ⟨trivial,sized⟩
  next =>
    split at run
    next => cases run
    next =>
      cases run
      exact List.forall_mem_cons.mpr ⟨trivial,sized⟩

theorem enterString_sized {frame : Frame} (run : enterString frame stack = .ok progress)
    (opens : frame.Sized unread) (sized : stack.Sized unread) : progress.Sized unread := by
  unfold enterString at run
  split at run
  next => cases run
  next =>
    cases run
    exact List.forall_mem_cons.mpr ⟨opens,sized⟩

theorem deliverBytes_sized {content : Bytes} (run : deliverBytes content stack = .ok progress)
    (sized : stack.Sized unread) : progress.Sized unread := by
  unfold deliverBytes at run
  split at run
  next =>
    cases run
    exact List.forall_mem_cons.mpr ⟨trivial,(List.forall_mem_cons.mp sized).2⟩
  next => exact deliver_sized run (.bytes _) sized

/-- The content of a text has left as many bytes fewer to read. -/
theorem deliverText_sized {content : Bytes} (run : deliverText content stack = .ok progress)
    (short : content.length < 2 ^ 64) (sized : stack.Sized (content.length + unread)) :
    progress.Sized unread := by
  unfold deliverText at run
  split at run
  next chunks n rest =>
    cases run
    obtain ⟨here,outer⟩ := List.forall_mem_cons.mp sized
    refine List.forall_mem_cons.mpr ⟨?_,Stack.Sized.mono outer (Nat.le_add_left _ _)⟩
    rw [Frame.Sized] at here ⊢
    rw [List.flatten_cons,List.length_append]
    omega
  next =>
    refine deliver_sized run (.text ?_) (sized.mono (Nat.le_add_left _ _))
    simpa using short

/-- One round keeps the bounds. -/
theorem step_sized {head : Head} {bytes rest : Bytes}
    (run : step head bytes stack = .ok (progress,rest)) (bound : bytes.length < 2 ^ 64)
    (sized : stack.Sized bytes.length) :
    rest.length ≤ bytes.length ∧ progress.Sized rest.length := by
  -- All heads but those of strings leave the bytes behind them as they are.
  have stays {result : Except Fault Progress}
      (run : (result >>= fun p => pure (p,bytes)) = .ok (progress,rest))
      (keeps : result = .ok progress → progress.Sized bytes.length) :
      rest.length ≤ bytes.length ∧ progress.Sized rest.length := by
    obtain ⟨p,round,run⟩ := except_bind_eq_ok.mp run
    cases run
    exact ⟨Nat.le_refl _,keeps round⟩
  cases head with
  | uint n => exact stays run fun round => deliver_sized round (.uint n) sized
  | negative n => exact stays run fun round => deliver_sized round (.negative n) sized
  | simple n => exact stays run fun round => deliver_sized round (.simple n) sized
  | float content => exact stays run fun round => deliver_sized round (.float content) sized
  | tag n => exact stays run fun round => enterTag_sized round sized
  | stop => exact stays run fun round => close_sized round sized
  | array length =>
    refine stays run fun round => enter_sized round (.array (Nat.zero_le _) (by simp)) ?_ sized
    intro left some few
    exact ⟨rfl,some,by simpa using few,by simp⟩
  | map length =>
    refine stays run fun round => enter_sized round (.map (by simp) (by simp)) ?_ sized
    exact fun _ _ _ => List.forall_mem_nil _
  | bytes length =>
    cases length with
    | indefinite => exact stays run fun round => enterString_sized round trivial sized
    | definite n =>
      obtain ⟨⟨content,left⟩,taken,run⟩ := except_bind_eq_ok.mp run
      obtain ⟨p,round,run⟩ := except_bind_eq_ok.mp run
      cases run
      obtain ⟨-,behind⟩ := takeBytes_length taken
      exact ⟨by omega,deliverBytes_sized round (sized.mono (by omega))⟩
  | text length =>
    cases length with
    | indefinite =>
      refine stays run fun round => enterString_sized round ?_ sized
      rw [Frame.Sized,List.flatten_nil,List.length_nil,Nat.zero_add]
      exact bound
    | definite n =>
      obtain ⟨⟨content,left⟩,taken,run⟩ := except_bind_eq_ok.mp run
      obtain ⟨p,round,run⟩ := except_bind_eq_ok.mp run
      cases run
      obtain ⟨length,behind⟩ := takeBytes_length taken
      rw [List.length_nil,Nat.zero_add] at length
      exact ⟨by omega,deliverText_sized round (by omega) (sized.mono (by omega))⟩

end Steps

theorem readItem_sized {fuel : Nat} {bytes rest : Bytes} {stack : Stack} {item : Item}
    (run : readItem fuel bytes stack = .ok (item,rest)) (bound : bytes.length < 2 ^ 64)
    (sized : stack.Sized bytes.length) : item.Sized := by
  induction fuel generalizing bytes stack with
  | zero => cases run
  | succ fuel ih =>
    rw [readItem] at run
    split at run
    next => cases run
    next head behind read =>
      have shorter := readHead_length read
      have round {progress : Progress} {left : Bytes}
          (run : step head behind stack = .ok (progress,left)) :=
        step_sized run (by omega) (sized.mono shorter)
      split at run
      next => cases run
      next found =>
        cases run
        exact (round found).2
      next later left found =>
        obtain ⟨fewer,sized⟩ := round found
        exact ih run (by omega) sized

/-- Bounds of an item that was read from bytes whose number a head can hold. -/
theorem sized_of_parse {bytes : Bytes} {item : Item} (run : parse bytes = .ok item)
    (bound : bytes.length < 2 ^ 64) : item.Sized := by
  obtain ⟨⟨found,rest⟩,read,run⟩ := except_bind_eq_ok.mp run
  dsimp only at run
  split at run
  next =>
    cases run
    exact readItem_sized read bound (List.forall_mem_nil _)
  next => cases run

end CoolBackend.Cbor
