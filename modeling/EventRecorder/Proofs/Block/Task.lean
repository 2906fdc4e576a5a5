import EventRecorder.Proofs.Bytes
import EventRecorder.Task

/-! # Reading tasks back

The name of a task is read back from the two words that it was made into. -/

namespace EventRecorder.TaskName

theorem ofBytes_toList (name : TaskName) : ofBytes name.toList = name := by
  refine Vector.ext fun i hi => ?_
  simp [ofBytes]

/-- A name is read back from its two words. -/
theorem ofWords_toWords (name : TaskName) : ofWords name.toWords.1 name.toWords.2 = name := by
  have hlow : (name.toList.take 8).length = 8 := by simp
  have hhigh : (name.toList.drop 8).length = 8 := by simp
  have hfirst := bytesOfWord_wordOfBytes (Nat.le_of_eq hlow)
  have hsecond := bytesOfWord_wordOfBytes (Nat.le_of_eq hhigh)
  rw [hlow] at hfirst
  rw [hhigh] at hsecond
  unfold ofWords toWords
  rw [hfirst, hsecond, List.take_append_drop, ofBytes_toList]

end EventRecorder.TaskName
