import ProbeAtlas.Debug.Mode
import ProbeAtlas.Netlist.Fragment

/-!
# ProbeAtlas — bus signals

A bridge core watches every signal of its buses. The signals of one bus and their widths are fixed by
the kind of bus. With several buses the names of the signals carry the number of their bus.
-/

namespace ProbeAtlas.BusKind

/-- The signals of one bus with their widths, in the order in which they feed the bridge core. -/
def signals : BusKind → List (String × Nat)
  | .full =>
    [("AWID", 16), ("AWADDR", 32), ("AWLEN", 8), ("AWBURST", 2), ("AWLOCK", 1), ("AWCACHE", 4),
      ("AWPROT", 3), ("AWREGION", 4), ("AWQOS", 4), ("AWUSER", 9), ("AWVALID", 1), ("AWREADY", 1),
      ("WDATA", 32), ("WSTRB", 4), ("WLAST", 1), ("WVALID", 1), ("WREADY", 1), ("BRESP", 2),
      ("BVALID", 1), ("BREADY", 1), ("ARID", 16), ("ARADDR", 32), ("ARLEN", 8), ("ARBURST", 2),
      ("ARLOCK", 1), ("ARCACHE", 4), ("ARPROT", 3), ("ARREGION", 4), ("ARQOS", 4), ("ARUSER", 9),
      ("ARVALID", 1), ("ARREADY", 1), ("RDATA", 32), ("RRESP", 2), ("RLAST", 1), ("RVALID", 1),
      ("RREADY", 1)]
  | .lite =>
    [("AWADDR", 32), ("AWPROT", 3), ("AWVALID", 1), ("AWREADY", 1), ("WDATA", 32), ("WSTRB", 4),
      ("WVALID", 1), ("WREADY", 1), ("BRESP", 2), ("BVALID", 1), ("BREADY", 1), ("ARADDR", 32),
      ("ARPROT", 3), ("ARVALID", 1), ("ARREADY", 1), ("RDATA", 32), ("RRESP", 2), ("RVALID", 1),
      ("RREADY", 1)]

/-- How many bits one bus feeds into the bridge core. -/
def width (kind : BusKind) : Nat :=
  (kind.signals.map Prod.snd).foldr (· + ·) 0

/-- The name of a signal of the bus with the given number. -/
def signalName (buses : Nat) (bus : Nat) (signal : String) : String :=
  if 1 < buses then s!"{signal}_{bus}" else signal

/-- The whole wires of all buses, bus after bus. -/
def fragments (kind : BusKind) (buses : Nat) : List Fragment :=
  (List.range buses).flatMap fun i =>
    kind.signals.map fun (signal, width) =>
      .slice ⟨signalName buses (i + 1) signal, width, width, 0, false⟩

end ProbeAtlas.BusKind
