import Granary.Gencode.Lemmas.DirectBranch
import Granary.Interrupts.Routines

/-!
# Interrupt routines: the handler on the private stack
-/

namespace Granary.Interrupts

open Machine Gencode

/-- The function leaves alone what it was called with on the private stack, and `n` bytes of another stack. -/
structure HandlerConforms (n : Nat) (native : Word) (f : State → State) (u : State) : Prop where
  rsp : (f u).reg .rsp = u.reg .rsp
  saved : ∀ r ∈ calleeSaved, (f u).reg r = u.reg r
  top : (f u).top = u.top
  native : ∀ b, (b - native).toNat < n → (f u).mem b = u.mem b

variable (alu : Instr → State → Word) {c : Routines} {stack : PrivateCallStack} {depth n : Nat} {s : State}

/-- The stack is switched, or stays the same, and the words of the caller are apart from what is pushed. -/
theorem callEnter_native (h : GetsTop stack depth c.getPrivateStackTop) (hn : n + 24 + depth ≤ 2 ^ 64)
    (hstack : SameWindow (s.reg .rsp - 16) stack.top ∨ ∀ b, (b - s.reg .rsp).toNat < n → ¬ Below stack.top 24 b)
    (entered : Word) :
    let u := Nesting.callEnter alu c.getPrivateStackTop entered s
    u.top = s.reg .rsp ∧ ∀ b, (b - s.reg .rsp).toNat < n → u.mem b = s.mem b ∧ ¬ Below (u.reg .rsp) 8 b := by
  by_cases hw : SameWindow (s.reg .rsp - 16) stack.top
  · obtain ⟨hrsp, hsaved, -, hmem⟩ := callEnter_stays alu entered h hw
    refine ⟨hsaved, fun b hb => ⟨hmem b ?_, ?_⟩⟩
    · unfold Below
      bv_omega
    · rw [hrsp]
      unfold Below
      bv_omega
  · obtain ⟨⟨hrsp, hsaved, hmem⟩, -⟩ := callEnter_switches alu entered h hw
    refine ⟨hsaved, fun b hb => ?_⟩
    have hout := hstack.resolve_left hw b hb
    refine ⟨hmem b (not_or.2 ⟨?_, fun hb' => hout (hb'.mono (by decide))⟩), fun hb' => hout ?_⟩
    · unfold Below
      bv_omega
    · rw [hrsp] at hb'
      exact hb'.lower (by decide)

/-- With a conforming handler the calls of the common routine return as functions do. -/
theorem handlerReturns_of_conforms (h : GetsTop stack depth c.getPrivateStackTop)
    (hregs : ∀ s r, r ≠ .rax → r ≠ .rsi → r ≠ .rdi → (c.getPrivateStackTop s).reg r = s.reg r) (hn : n + 24 + depth ≤ 2 ^ 64)
    (hstack : SameWindow (s.reg .rsp - 16) stack.top ∨ ∀ b, (b - s.reg .rsp).toNat < n → ¬ Below stack.top 24 b)
    (hconf : ∀ u, HandlerConforms n (s.reg .rsp) c.handleInterrupt u) : HandlerReturns n s (callHandler alu c s) := by
  have hcallee : ∀ r ∈ calleeSaved, r ≠ .rax ∧ r ≠ .rsp ∧ r ≠ .rdi := by decide
  rw [callHandler]
  obtain ⟨a₁, h₁⟩ := insertCall_rax alu c.sites.farEnter c.sites.enterPc
    (Nesting.callEnter alu c.getPrivateStackTop c.sites.entered) s
  obtain ⟨htop, hnative⟩ := callEnter_native alu (s := s.set .rax a₁) (n := n) h hn
    (by simpa only [set_reg, reduceCtorEq, reduceIte] using hstack) c.sites.entered
  have hreg := fun r (hr : r ∈ calleeSaved) =>
    callEnter_reg alu hregs h c.sites.entered (s.set .rax a₁) (hcallee r hr).1 (hcallee r hr).2.1
  simp only [h₁]
  generalize Nesting.callEnter alu c.getPrivateStackTop c.sites.entered (s.set .rax a₁) = u at htop hnative hreg ⊢
  obtain ⟨a₂, h₂⟩ := insertCall_rax alu c.sites.farHandle c.sites.handlePc c.handleInterrupt u
  obtain ⟨hrsp, hsaved, htop', hnative'⟩ := hconf (u.set .rax a₂)
  simp only [h₂]
  generalize c.handleInterrupt (u.set .rax a₂) = v at hrsp hsaved htop' hnative' ⊢
  obtain ⟨a₃, h₃⟩ := insertCall_rax alu c.sites.farExit c.sites.exitPc (Nesting.callExit alu c.sites.exited)
    (run alu [.mov .rdi .rax] v)
  rw [h₃]
  obtain ⟨hexit, -, hmem⟩ := callExit_spec alu c.sites.exited ((run alu [.mov .rdi .rax] v).set .rax a₃)
  have hsp : ((run alu [.mov .rdi .rax] v).set .rax a₃).reg .rsp = u.reg .rsp := by
    rw [set_reg, if_neg (by decide), run_cons, run_nil, exec, set_reg, if_neg (by decide), hrsp, set_reg, if_neg (by decide)]
  refine ⟨hexit.trans ?_, fun r hr => ?_, fun b hb => ?_⟩
  · rw [set_reg, if_neg (by decide)] at htop
    rw [← htop, State.top, hsp]
    rw [State.top, State.top, hrsp, set_reg, if_neg (by decide)] at htop'
    exact htop'
  · obtain ⟨hrax, hrsp', hrdi⟩ := hcallee r hr
    rw [callExit_reg alu _ _ hrax hrsp', set_reg, if_neg hrax, run_cons, run_nil, exec, set_reg, if_neg hrdi, hsaved r hr,
      set_reg, if_neg hrax, hreg r hr, set_reg, if_neg hrax]
  · have hb' : (b - (s.set .rax a₁).reg .rsp).toNat < n := by rwa [set_reg, if_neg (by decide)]
    obtain ⟨hkeep, hbelow⟩ := hnative b hb'
    rw [hsp] at hmem
    exact (hmem b hbelow).trans ((hnative' b hb).trans hkeep)

end Granary.Interrupts
