import DcnnFpga.Lib.Clocked
import DcnnFpga.Lib.Loop
import DcnnFpga.Lib.Memory
import DcnnFpga.Lib.Wrap
import DcnnFpga.Rtl.Frozen
import DcnnFpga.Rtl.MatrixLaw
import DcnnFpga.Rtl.NoHang
import DcnnFpga.Nios.OnSlave
import DcnnFpga.Nios.Layers
import DcnnFpga.Nios.MatMulMonotone
import DcnnFpga.Nios.BlockAccess
import DcnnFpga.Nios.PoolingLaw
import DcnnFpga.Nios.ReadEvent
import DcnnFpga.Rtl.Schedule
import DcnnFpga.Rtl.PassLaw
import DcnnFpga.Nios.Delivery
import DcnnFpga.Nios.LoadedLayer
import DcnnFpga.Nios.Returns
import DcnnFpga.Nios.MatMulSymmetry
import DcnnFpga.Lib.Handshake
import DcnnFpga.Rtl.Timing
import DcnnFpga.Nios.MatMulClocks
import DcnnFpga.Lib.Queue
import DcnnFpga.Uart.Counters
import DcnnFpga.Uart.InDeserializer
import DcnnFpga.Uart.Baud
import DcnnFpga.Uart.OutSerializer
import DcnnFpga.Uart.Wire
import DcnnFpga.Uart.Rs232
import DcnnFpga.Uart.Polled
import DcnnFpga.Nios.SerialLoad
import DcnnFpga.Uart.Status
import DcnnFpga.Nios.LayerClocks
import DcnnFpga.Nios.NetworkClocks
import DcnnFpga.Uart.Link
import DcnnFpga.Uart.Tolerance
import DcnnFpga.Uart.Acknowledge
import DcnnFpga.Nios.SerialAcks
