import Cmogstored.HttpFrame

/-! How an argument about a connection is put together, whatever contract it is about: one rule for a
step, one for the end of an upload, and one that carries an invariant through the whole connection. -/

namespace Cmogstored

open Prog

theorem wrap64_of_lt {n : Int} (hlow : 0 ≤ n) (hhigh : n < 2 ^ 63) : wrap64 n = n := by
  rw [wrap64, Int.bmod_eq_of_le] <;> omega

theorem wrap64_add (n m : Int) : wrap64 (wrap64 n + m) = wrap64 (n + m) := Int.bmod_add_bmod

variable {Ghost : Type} {K : Contract Call Res Ghost} {ctx : Ctx} {fuel : Nat} {http : Http}
  {ghost : Ghost} {Q : Http × Next → Ghost → Prop}

/-- A step flushes, goes on with a body, or reads a request and answers it. -/
theorem wp_httpQueueStep
    (hflush : http.wbuf ≠ .null → wp K (httpWbufInProgress fuel http) Q ghost)
    (hforward : http.wbuf = .null → http.forward ≠ none →
      wp K (httpForwardInProgress ctx fuel http) Q ghost)
    (hinput : http.wbuf = .null → http.forward = none →
      wp K (queueInput fuel http) (fun input => wp K (queueFinish ctx fuel input) Q) ghost) :
    wp K (httpQueueStep ctx fuel http) Q ghost := by
  unfold httpQueueStep
  split
  · exact hflush ‹_›
  · rename_i hnull
    have hnull := not_not.mp hnull
    split
    · exact hforward hnull ‹_›
    · rename_i hnone
      exact wp_bind.mpr (hinput hnull (not_not.mp hnone))

/-- Deferring pipelined bytes touches the read buffer only. -/
theorem wp_httpDeferRbuf {buf : Bytes} {Q : Http → Ghost → Prop} (hexcused : K.excused ghost)
    (h : ∀ http', http'.toFields = http.toFields → http'.wbuf = http.wbuf →
      http'.forward = http.forward → Q http' ghost) :
    wp K (httpDeferRbuf http buf) Q ghost := by
  refine wp_mono (wp_within (J := fun ghost' => ghost' = ghost) ?_ ?_
    (httpDeferRbuf_within http buf (S := fun _ => False)) rfl) ?_
  · exact fun _ _ _ hfalse => hfalse.elim
  · rintro _ rfl
    exact hexcused
  · rintro http' _ ⟨⟨hfields, hwbuf, hforward⟩, rfl⟩
    exact h http' hfields hwbuf hforward

/-- An invariant that every step keeps holds as long as the connection lives. -/
theorem wp_serve {Inv : Http → Ghost → Prop}
    (hstep : ∀ fuel http ghost, Inv http ghost → wp K (mogHttpQueueStep ctx fuel http)
      (fun result ghost => result.2 ≠ .close → Inv result.1 ghost) ghost)
    (h : Inv http ghost) : wp K (serve ctx fuel http) (fun _ _ => True) ghost := by
  induction fuel generalizing http ghost with
  | zero => trivial
  | succ fuel ih =>
    refine wp_bind.mpr (wp_mono (hstep fuel http ghost h) fun result ghost hresult => ?_)
    obtain ⟨http', next⟩ := result
    dsimp only
    split
    · trivial
    · exact ih (hresult ‹_›)

end Cmogstored
