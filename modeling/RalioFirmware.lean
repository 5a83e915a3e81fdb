import RalioFirmware.Core.Cbuf
import RalioFirmware.Core.Scheduled
import RalioFirmware.Core.RecurrentPass
import RalioFirmware.Core.VmCache
import RalioFirmware.Core.I2s
import RalioFirmware.Core.UartResize
import RalioFirmware.Core.UartReader
import RalioFirmware.Core.Ticker
import RalioFirmware.Ota.Authorized
import RalioFirmware.Esp.FlashAccess
import RalioFirmware.Esp.Eeprom
import RalioFirmware.Wifi.UdpDelivery
import RalioFirmware.Wifi.TcpAccounts
import RalioFirmware.Http.Upload
import RalioFirmware.Http.AddHeader
import RalioFirmware.Http.UriBraces
import RalioFirmware.Http.ChunkedTransfer
import RalioFirmware.Scout.Steering
import RalioFirmware.Mdns.Framing
import RalioFirmware.Mdns.Verified
import RalioFirmware.Dns.Routing
import RalioFirmware.Dhcp.Replies
import RalioFirmware.Eboot.EraseArea
import RalioFirmware.Eboot.Restarts
import RalioFirmware.Updater.Digest
import RalioFirmware.Updater.UpdateServer
import RalioFirmware.Ota.Upload
import RalioFirmware.Mesh.Delivery
import RalioFirmware.Mesh.MultiString
import RalioFirmware.Mesh.Expiry
import RalioFirmware.Mesh.Serializer
import RalioFirmware.Dhcp.Range
import RalioFirmware.Dhcp.Options
import RalioFirmware.Core.Clock
import RalioFirmware.Core.Non32xfer
import RalioFirmware.Core.TwiMaster
import RalioFirmware.Net.Strict
import RalioFirmware.Core.StreamFind
import RalioFirmware.Core.WStringText
import RalioFirmware.Wifi.UdpSend
import RalioFirmware.Mdns.CacheLife
import RalioFirmware.Mdns.TxtCompare
import RalioFirmware.Updater.Chunking
import RalioFirmware.Scout.ReverseSpeed
import RalioFirmware.Scout.Window
import RalioFirmware.Scout.RoboArm
import RalioFirmware.Core.Waveform
import RalioFirmware.Mesh.Sweep
import RalioFirmware.Ota.Session
import RalioFirmware.Dns.Llmnr
import RalioFirmware.Dns.NetBios
import RalioFirmware.Upnp.Search
import RalioFirmware.Wifi.CertStore
import RalioFirmware.Eboot.ImageFormat
import RalioFirmware.Mesh.Radix
import RalioFirmware.Http.UrlDecode
import RalioFirmware.Core.Servo
import RalioFirmware.Core.StdlibNoniso
import RalioFirmware.Netdump.Bounds
import RalioFirmware.Avrisp.Pages
import RalioFirmware.Wifi.MultiSelect
import RalioFirmware.Core.Base64
import RalioFirmware.Umm.Inspect
